import HDCS.Core.PooledRequest
import HDCS.Proof.Barrier
import HDCS.Proof.Replication

/-!
# A batched write and the op threads

A chain that has come to the batch keeps its thread until all the others have come too. With fewer
threads than chains, all threads can be taken by chains that wait for one that is still in the
queue. With enough of them, a chain can still look at the count before the last one has come, and
go to sleep after that one has notified.

So the threads are never exhausted if and only if there is one for every chain, and a request can
always be brought to its end if and only if it has one chain.
-/

namespace HDCS.Proof

open Lib PooledRequest Lib.Machine List

variable {cfg : ReplicatedConfig}

/-! ## What a step does to the chains -/

section Chains

variable {r r' : ReplicatedRequest cfg} {a : ReplicatedRequest.Act}

structure Moves (r r' : ReplicatedRequest cfg) (a : ReplicatedRequest.Act) (w : Nat) (v v' : Worker)
    (l : List Worker) : Prop where
  chain : chainOf a = some w
  before : r.workers[w]? = some v
  awake : v ≠ .asleep
  unfinished : v ≠ .finished
  after : v' ≠ .preparing
  ends : v' = .finished ↔ isFinish a = true
  late : isLate v = true → isLate v' = true
  others : l = r.workers ∨ l = r.workers.map Worker.wake ∧ isLate v = false
  workers : r'.workers = l.set w v'

theorem moves_of_stepped (hs : ReplicatedRequest.Stepped r a r') :
    (chainOf a = none ∧ isFinish a = false ∧ r'.workers = r.workers)
      ∨ ∃ w v v' l, Moves r r' a w v v' l := by
  cases hs with
  | insert hw _ _ | test hw _ | again hw _ | decrement hw _ | last hw _ | message hw | write hw
  | pass hw _ | wait hw _ | sleep hw =>
    exact Or.inr ⟨_, _, _, _, rfl, hw, by simp, by simp, by simp, by simp [isFinish],
      by simp [isLate], Or.inl rfl, rfl⟩
  | @notify w notifies hw =>
    refine Or.inr ⟨_, _, _, _, rfl, hw, by simp, by simp, by simp, by simp [isFinish],
      by simp [isLate], ?_, rfl⟩
    cases notifies with
    | true => exact Or.inr ⟨rfl, rfl⟩
    | false => exact Or.inl rfl
  | @finish w v hw hv =>
    obtain ⟨_, _, _, heq⟩ := ReplicatedRequest.completeBlock_eq (r.setWorker w .finished)
    rw [heq]
    refine Or.inr ⟨w, v, .finished, r.workers, rfl, hw, ?_, ?_, by simp, by simp [isFinish],
      by simp [isLate], Or.inl rfl, rfl⟩
    · rcases hv with rfl | ⟨rfl, -⟩ <;> simp
    · rcases hv with rfl | ⟨rfl, -⟩ <;> simp
  | @reply i m ret hm =>
    obtain ⟨_, _, _, heq⟩ := ReplicatedRequest.complete_eq ⟨.replica, ret⟩ _
    rw [heq]
    exact Or.inl ⟨rfl, rfl, rfl⟩

variable {w i : Nat} {v v' : Worker} {l : List Worker}

theorem Moves.other (h : Moves r r' a w v v' l) (hi : w ≠ i) :
    r'.workers[i]? = r.workers[i]? ∨ r'.workers[i]? = r.workers[i]?.map Worker.wake := by
  rw [h.workers, getElem?_set_ne hi]
  rcases h.others with hl | ⟨hl, -⟩
  · rw [hl]
    exact Or.inl rfl
  · rw [hl, getElem?_map]
    exact Or.inr rfl

theorem Moves.self (h : Moves r r' a w v v' l) : r'.workers[w]? = some v' := by
  have hlt := lt_of_getElem? h.before
  rw [h.workers]
  refine getElem?_set_self ?_
  rcases h.others with hl | ⟨hl, -⟩
  · rw [hl]
    exact hlt
  · rw [hl, length_map]
    exact hlt

theorem preparing_step (hs : ReplicatedRequest.Stepped r a r') :
    r'.workers[i]? = some .preparing ↔ r.workers[i]? = some .preparing ∧ chainOf a ≠ some i := by
  rcases moves_of_stepped hs with ⟨hnone, -, hworkers⟩ | ⟨w, v, v', l, h⟩
  · rw [hworkers, hnone]
    simp
  · rw [h.chain]
    by_cases hwi : w = i
    · subst hwi
      rw [h.self]
      exact iff_of_false (fun heq => h.after (Option.some.inj heq)) (fun hand => hand.2 rfl)
    · refine Iff.trans ?_ (and_iff_left (fun heq => hwi (Option.some.inj heq))).symm
      rcases h.other hwi with hsame | hwake
      · rw [hsame]
      · rw [hwake]
        cases r.workers[i]? with
        | none => simp
        | some u => cases u <;> simp [Worker.wake]

theorem doneCount_step (hs : ReplicatedRequest.Stepped r a r') :
    doneCount r' = doneCount r + (isFinish a).toNat := by
  rcases moves_of_stepped hs with ⟨-, hno, hworkers⟩ | ⟨w, v, v', l, h⟩
  · unfold doneCount
    rw [hworkers, hno]
    rfl
  · have hsame : l.countP (· == .finished) = doneCount r := by
      rcases h.others with hl | ⟨hl, -⟩
      · rw [hl]
        rfl
      · rw [hl, countP_map]
        refine countP_congr fun u _ => ?_
        cases u <;> simp [Worker.wake]
    have hget : ∃ u, l[w]? = some u ∧ u ≠ .finished := by
      rcases h.others with hl | ⟨hl, -⟩
      · exact ⟨v, by rw [hl]; exact h.before, h.unfinished⟩
      · refine ⟨v.wake, by rw [hl, getElem?_map, h.before]; rfl, ?_⟩
        have hunf := h.unfinished
        cases v <;> simp_all [Worker.wake]
    obtain ⟨u, hu, hunf⟩ := hget
    have hadd := countP_set_add (fun x : Worker => x == .finished) v' hu
    have hends : (v' == .finished) = isFinish a := by
      rw [Bool.eq_iff_iff, beq_iff_eq]
      exact h.ends
    rw [hends, beq_false_of_ne hunf, hsame] at hadd
    unfold doneCount at hadd ⊢
    rw [h.workers]
    exact hadd

end Chains

/-! ## The threads -/

variable {s s' t : PooledRequest cfg} {a : Act} {threads : Nat}

/-- Every thread is blocked in `wait_for_complete`, and a chain is in the queue. -/
def Exhausted (s : PooledRequest cfg) : Prop :=
  s.free = 0 ∧ s.jobQueue ≠ [] ∧ ∀ w v, s.request.workers[w]? = some v → s.Taken w →
    v ≠ .finished → v = .asleep

/-- All chains are at their end. -/
def AllFinished (s : PooledRequest cfg) : Prop := ∀ v ∈ s.request.workers, v = .finished

structure PoolInv (threads : Nat) (s : PooledRequest cfg) : Prop where
  base : Reachable ReplicatedRequest.step (fun _ _ => True) (.start cfg) s.request
  /-- A thread is free, or has a chain that is not at its end. -/
  threads : s.free + cfg.blocks.length
    = threads + doneCount s.request + s.unmapped.length + s.jobQueue.length

theorem doneCount_start (cfg : ReplicatedConfig) :
    doneCount (ReplicatedRequest.start cfg) = 0 :=
  countP_eq_zero.mpr fun v hv => by
    rw [(mem_replicate.mp hv).2]
    decide

theorem poolInv_start (cfg : ReplicatedConfig) (threads : Nat) :
    PoolInv threads (start cfg threads) where
  base := .init
  threads := by
    show threads + _ = threads + doneCount (ReplicatedRequest.start cfg) + (List.range _).length + 0
    rw [doneCount_start, length_range]
    omega

theorem poolInv_step (h : PoolInv threads s) (hs : s.step a = some s') : PoolInv threads s' := by
  have hthreads := h.threads
  cases step_cases hs with
  | @addTask w rest hunmapped =>
    refine ⟨h.base, ?_⟩
    rw [hunmapped, length_cons] at hthreads
    show s.free + _ = threads + doneCount s.request + rest.length + (s.jobQueue ++ [w]).length
    rw [length_append, length_singleton]
    omega
  | @take w free rest hfree hqueue =>
    refine ⟨h.base, ?_⟩
    rw [hqueue, length_cons] at hthreads
    show free + _ = threads + doneCount s.request + s.unmapped.length + rest.length
    omega
  | @run a r htaken hr =>
    refine ⟨h.base.tail trivial hr.step_eq, ?_⟩
    have hdone := doneCount_step hr
    show (if isFinish a then s.free + 1 else s.free) + _
      = threads + doneCount r + s.unmapped.length + s.jobQueue.length
    cases hfin : isFinish a with
    | true =>
      rw [hfin, Bool.toNat_true] at hdone
      rw [if_pos rfl]
      omega
    | false =>
      rw [hfin, Bool.toNat_false] at hdone
      rw [if_neg (by simp)]
      omega

theorem poolInv_reachable (h : PoolInv threads s)
    (ht : Reachable step (fun _ _ => True) s t) : PoolInv threads t :=
  Reachable.invariant h (fun _ _ _ hinv _ hs => poolInv_step hinv hs) ht

theorem PoolInv.not_exhausted (h : PoolInv threads s) (hk : cfg.blocks.length ≤ threads) :
    ¬ Exhausted s := by
  rintro ⟨hfree, hqueue, -⟩
  have hthreads := h.threads
  have hpos := length_pos_of_ne_nil hqueue
  omega

/-! ## One chain -/

def Lone (r : ReplicatedRequest cfg) : Prop :=
  ∃ v, r.workers = [v] ∧ v ≠ .asleep ∧ v ≠ .drowsy ∧ r.sharedCount = if isPast v then 0 else 1

theorem lone_start (hk : cfg.blocks.length = 1) : Lone (ReplicatedRequest.start cfg) := by
  refine ⟨.preparing, ?_, by simp, by simp, ?_⟩
  · show List.replicate cfg.blocks.length Worker.preparing = _
    rw [hk]
    rfl
  · rw [show (ReplicatedRequest.start cfg).sharedCount = _ from armedCount_eq cfg, hk]
    rfl

theorem lone_step {r r' : ReplicatedRequest cfg} {a : ReplicatedRequest.Act}
    (hh : cfg.handsOver = true) (h : Lone r) (hs : ReplicatedRequest.Stepped r a r') :
    Lone r' := by
  obtain ⟨v, hv, hasleep, hdrowsy, hcount⟩ := h
  have hget : ∀ {w : Nat} {u : Worker}, r.workers[w]? = some u → w = 0 ∧ v = u := by
    intro w u hw
    rw [hv] at hw
    cases w with
    | zero => exact ⟨rfl, Option.some.inj hw⟩
    | succ w => cases hw
  have hset : ∀ u : Worker, r.workers.set 0 u = [u] := fun u => by
    rw [hv]
    rfl
  cases hs with
  | insert hw _ _ | test hw _ | message hw | write hw | pass hw _ =>
    obtain ⟨rfl, rfl⟩ := hget hw
    exact ⟨_, hset _, by simp, by simp, hcount⟩
  | again hw hminus =>
    obtain ⟨rfl, rfl⟩ := hget hw
    cases hcount.symm.trans hminus
  | decrement hw hne | wait hw hne =>
    obtain ⟨rfl, rfl⟩ := hget hw
    exact absurd hcount hne
  | last hw _ =>
    obtain ⟨rfl, rfl⟩ := hget hw
    exact ⟨_, hset _, by simp, by simp, rfl⟩
  | @notify w notifies hw =>
    obtain ⟨rfl, rfl⟩ := hget hw
    refine ⟨.waiting, ?_, by simp, by simp, hcount⟩
    show (if notifies then r.workers.map Worker.wake else r.workers).set 0 .waiting = _
    rw [hv]
    cases notifies <;> rfl
  | sleep hw =>
    obtain ⟨rfl, rfl⟩ := hget hw
    exact absurd rfl hdrowsy
  | @finish w u hw hu =>
    obtain ⟨rfl, rfl⟩ := hget hw
    obtain ⟨_, _, _, heq⟩ := ReplicatedRequest.completeBlock_eq (r.setWorker 0 .finished)
    rw [heq]
    rcases hu with rfl | ⟨rfl, hno⟩
    · exact ⟨.finished, hset _, by simp, by simp, hcount⟩
    · cases hh.symm.trans hno
  | @reply i m ret hm =>
    obtain ⟨_, _, _, heq⟩ := ReplicatedRequest.complete_eq ⟨.replica, ret⟩ _
    rw [heq]
    exact ⟨v, hv, hasleep, hdrowsy, hcount⟩

theorem exists_run (hh : cfg.handsOver = true) (hk : cfg.blocks.length = 1)
    (h : PoolInv threads s) (hall : ∀ w, s.Taken w) (hnot : ¬ AllFinished s) :
    ∃ a r, Stepped s (.run a) { s with
        request := r, free := if isFinish a then s.free + 1 else s.free }
      ∧ work r < work s.request := by
  have hlone : Lone s.request := Reachable.invariant (lone_start hk)
    (fun _ _ _ hinv _ hs => lone_step hh hinv (ReplicatedRequest.step_cases hs)) h.base
  have hended : ¬ Ended s.request := by
    intro hended
    obtain ⟨v, hv, hasleep, -⟩ := hlone
    refine hnot fun u hu => ?_
    rcases hended.worker (length_workers h.base) u hu with hfin | hsleep
    · exact hfin
    · rw [hv] at hu
      exact absurd ((mem_singleton.mp hu).symm.trans hsleep) hasleep
  unfold Ended at hended
  push Not at hended
  obtain ⟨a, -, hne⟩ := hended
  obtain ⟨r, hr⟩ := Option.ne_none_iff_exists'.mp hne
  have hstep := ReplicatedRequest.step_cases hr
  exact ⟨a, r, .run (fun w _ => hall w) hstep, work_lt h.base hstep⟩

def poolWork (s : PooledRequest cfg) : Nat :=
  2 * s.unmapped.length + s.jobQueue.length + work s.request

theorem exists_poolWork_lt (hh : cfg.handsOver = true) (hk : cfg.blocks.length = 1)
    (hthreads : 1 ≤ threads) (h : PoolInv threads s) (hnot : ¬ AllFinished s) :
    ∃ a t, s.step a = some t ∧ poolWork t < poolWork s := by
  unfold poolWork
  have hsum := h.threads
  cases hunmapped : s.unmapped with
  | cons w rest =>
    refine ⟨_, _, (Stepped.addTask hunmapped).step_eq, ?_⟩
    show 2 * rest.length + (s.jobQueue ++ [w]).length + work s.request < _
    rw [length_append, length_singleton, length_cons]
    omega
  | nil =>
    rw [hunmapped] at hsum
    cases hqueue : s.jobQueue with
    | cons w rest =>
      -- the only chain is in the queue, so all threads are free
      rw [hqueue, length_cons] at hsum
      obtain ⟨free, hfree⟩ := Nat.exists_eq_add_one_of_ne_zero (n := s.free) (by omega)
      refine ⟨_, _, (Stepped.take hfree hqueue).step_eq, ?_⟩
      show 2 * s.unmapped.length + rest.length + work s.request < _
      rw [hunmapped, length_cons]
      omega
    | nil =>
      have hall : ∀ w, s.Taken w := by
        intro w
        unfold Taken
        rw [hunmapped, hqueue]
        simp
      obtain ⟨a, r, hs, hlt⟩ := exists_run hh hk h hall hnot
      refine ⟨_, _, hs.step_eq, ?_⟩
      show 2 * s.unmapped.length + s.jobQueue.length + work r < _
      rw [hunmapped, hqueue]
      omega

/-- **One chain can always be brought to its end.** -/
theorem exists_allFinished (hh : cfg.handsOver = true) (hk : cfg.blocks.length = 1)
    (hthreads : 1 ≤ threads) (h : PoolInv threads s) :
    ∃ t, Reachable step (fun _ _ => True) s t ∧ AllFinished t := by
  have hstep : ∀ s : PooledRequest cfg, PoolInv threads s → ¬ AllFinished s →
      ∃ t, Reachable step (fun _ _ => True) s t ∧ PoolInv threads t
        ∧ poolWork t < poolWork s := by
    intro s hinv hnot
    obtain ⟨a, t, hst, hlt⟩ := exists_poolWork_lt hh hk hthreads hinv hnot
    exact ⟨t, Reachable.init.tail trivial hst, poolInv_step hinv hst, hlt⟩
  obtain ⟨t, ht, -, hfin⟩ := Reachable.exists_of_decreasing poolWork hstep h
  exact ⟨t, ht, hfin⟩

/-! ## From the chains to the threads -/

theorem reachable_of_chains {ok : ReplicatedRequest cfg → ReplicatedRequest.Act → Prop}
    {r : ReplicatedRequest cfg} (hs : s.request = .start cfg)
    (h : Reachable ReplicatedRequest.step ok (.start cfg) r)
    (htaken : ∀ w, ¬ s.Taken w → r.workers[w]? = some .preparing) :
    Reachable step (fun _ _ => True) s
      { s with request := r, free := s.free + doneCount r } := by
  induction h with
  | init =>
    rw [doneCount_start, Nat.add_zero, ← hs]
    exact .init
  | @tail r r' a hr _ hstep ih =>
    have hstep := ReplicatedRequest.step_cases hstep
    -- a chain that is at its beginning now was there before, and has not moved
    have hsr := ih fun w hw => ((preparing_step hstep).mp (htaken w hw)).1
    refine hsr.tail (a := .run a) trivial ?_
    have hmoves : ∀ w ∈ chainOf a, s.Taken w := by
      intro w hw
      by_contra hnot
      exact ((preparing_step hstep).mp (htaken w hnot)).2 hw
    have hpool := (Stepped.run (s := { s with request := r, free := s.free + doneCount r })
      hmoves hstep).step_eq
    rw [hpool, doneCount_step hstep]
    cases isFinish a <;> rfl

theorem reachable_addTasks (r : ReplicatedRequest cfg) (free : Nat) :
    ∀ unmapped jobQueue : List Nat, Reachable step (fun _ _ => True)
      (⟨r, unmapped, jobQueue, free⟩ : PooledRequest cfg) ⟨r, [], jobQueue ++ unmapped, free⟩
  | [], jobQueue => by
    rw [append_nil]
    exact .init
  | w :: unmapped, jobQueue => by
    have hrest := reachable_addTasks r free unmapped (jobQueue ++ [w])
    rw [append_assoc] at hrest
    exact (Reachable.init.tail trivial (Stepped.addTask rfl).step_eq).trans hrest

theorem reachable_takes (r : ReplicatedRequest cfg) (free : Nat) :
    ∀ (n : Nat) (jobQueue : List Nat), n ≤ jobQueue.length →
      Reachable step (fun _ _ => True)
        (⟨r, [], jobQueue, free + n⟩ : PooledRequest cfg) ⟨r, [], jobQueue.drop n, free⟩
  | 0, _, _ => .init
  | _ + 1, [], hn => nomatch hn
  | n + 1, _ :: jobQueue, hn =>
    (Reachable.init.tail trivial (Stepped.take rfl rfl).step_eq).trans
      (reachable_takes r free n jobQueue (Nat.le_of_succ_le_succ hn))

def handedOut (cfg : ReplicatedConfig) (n free : Nat) : PooledRequest cfg :=
  ⟨.start cfg, [], (List.range cfg.blocks.length).drop n, free⟩

theorem reachable_handedOut (free : Nat) {n : Nat} (hn : n ≤ cfg.blocks.length) :
    Reachable step (fun _ _ => True) (start cfg (free + n)) (handedOut cfg n free) :=
  (reachable_addTasks _ _ _ []).trans
    (reachable_takes _ _ n _ (by rw [nil_append, length_range]; exact hn))

theorem mem_jobQueue_handedOut (free : Nat) {n w : Nat} :
    w ∈ (handedOut cfg n free).jobQueue ↔ n ≤ w ∧ w < cfg.blocks.length := by
  show w ∈ (List.range cfg.blocks.length).drop n ↔ _
  rw [range_eq_range', drop_range', mem_range'_1]
  omega

theorem taken_handedOut {n free w : Nat} :
    (handedOut cfg n free).Taken w ↔ ¬ (n ≤ w ∧ w < cfg.blocks.length) := by
  rw [← mem_jobQueue_handedOut free]
  exact and_iff_right not_mem_nil

/-! ## Chains that are not woken up -/

structure Doomed (s : PooledRequest cfg) : Prop where
  unmapped : s.unmapped = []
  asleep : s.request.workers[0]? = some .asleep
  /-- Whoever notifies has done so. -/
  late : ∀ w v, s.request.workers[w]? = some v → s.Taken w → isLate v = true
  /-- All have a thread, or those that have one keep it. -/
  noThread : s.jobQueue = [] ∨ s.free = 0 ∧ ∀ w v, s.request.workers[w]? = some v → s.Taken w →
    v = .asleep

theorem doomed_step (h : Doomed s) (hs : s.step a = some s') : Doomed s' := by
  cases step_cases hs with
  | addTask hunmapped => cases h.unmapped.symm.trans hunmapped
  | take hfree hqueue =>
    rcases h.noThread with hnil | ⟨hzero, -⟩
    · cases hnil.symm.trans hqueue
    · cases hzero.symm.trans hfree
  | @run a r htaken hr =>
    rcases moves_of_stepped hr with ⟨-, hno, hworkers⟩ | ⟨w, v, v', l, hmove⟩
    · refine ⟨h.unmapped, ?_, ?_, ?_⟩
      · rw [hworkers]
        exact h.asleep
      · rw [hworkers]
        exact h.late
      · rw [hworkers, hno]
        exact h.noThread
    · have htaken := htaken w hmove.chain
      have hlate := h.late w v hmove.before htaken
      have hnil : s.jobQueue = [] := by
        rcases h.noThread with hnil | ⟨-, hall⟩
        · exact hnil
        · exact absurd (hall w v hmove.before htaken) hmove.awake
      have hl : l = s.request.workers := by
        rcases hmove.others with hl | ⟨-, hfalse⟩
        · exact hl
        · cases hlate.symm.trans hfalse
      have hw : w ≠ 0 := by
        rintro rfl
        exact hmove.awake (Option.some.inj (hmove.before.symm.trans h.asleep))
      refine ⟨h.unmapped, ?_, ?_, Or.inl hnil⟩
      · show r.workers[0]? = _
        rw [hmove.workers, hl, getElem?_set_ne hw]
        exact h.asleep
      · intro i u hi hti
        have hi : r.workers[i]? = some u := hi
        rw [hmove.workers, hl] at hi
        rcases getElem?_set_cases hmove.before hi with ⟨-, rfl⟩ | ⟨-, hi⟩
        · exact hmove.late hlate
        · exact h.late i u hi hti

theorem not_allFinished_of_doomed (h : Doomed s)
    (ht : Reachable step (fun _ _ => True) s t) : ¬ AllFinished t := by
  have hdoomed : Doomed t :=
    Reachable.invariant h (fun _ _ _ hinv _ hs => doomed_step hinv hs) ht
  intro hfin
  cases hfin _ (mem_of_getElem? hdoomed.asleep)

theorem reachable_asleep (hh : cfg.handsOver = true) {i : Nat} (hi : i < cfg.blocks.length % 256) :
    ∀ n ≤ i, ∃ r, Reachable ReplicatedRequest.step StoreWorks (.start cfg) r
      ∧ (∀ j < cfg.blocks.length, r.workers[j]?
          = some (if j < n then .asleep else if j < i then .waiting else .preparing))
      ∧ r.sharedCount = (cfg.blocks.length % 256 : Nat) - i
  | 0, _ => by
    obtain ⟨r, hr, hworkers, hcount, -⟩ := reachable_gather hh i hi
    exact ⟨r, hr, fun j hj => by rw [hworkers j hj, if_neg (Nat.not_lt_zero j)], hcount⟩
  | n + 1, hn => by
    obtain ⟨r, hr, hworkers, hcount⟩ := reachable_asleep hh hi n (by omega)
    have hnk : n < cfg.blocks.length := Nat.lt_of_lt_of_le (by omega) (Nat.mod_le _ 256)
    have hw : r.workers[n]? = some .waiting := by
      rw [hworkers n hnk, if_neg (Nat.lt_irrefl _), if_pos (by omega)]
    have hlt : n < r.workers.length := lt_of_getElem? hw
    have hr₁ := hr.tail (a := ReplicatedRequest.Act.evaluate n) trivial
      (ReplicatedRequest.Stepped.wait hw (by omega)).step_eq
    have hr₂ := hr₁.tail (a := ReplicatedRequest.Act.sleep n) trivial
      (ReplicatedRequest.Stepped.sleep (getElem?_set_self hlt)).step_eq
    refine ⟨_, hr₂, fun j hj => ?_, hcount⟩
    show ((r.workers.set n .drowsy).set n .asleep)[j]? = _
    rw [set_set]
    by_cases hnj : n = j
    · subst hnj
      rw [getElem?_set_self hlt, if_pos (Nat.lt_succ_self n)]
    · rw [getElem?_set_ne hnj, hworkers j hj]
      by_cases hjn : j < n
      · rw [if_pos hjn, if_pos (by omega)]
      · rw [if_neg hjn, if_neg (show ¬ j < n + 1 by omega)]

theorem reachable_asleep_late (hh : cfg.handsOver = true) (htwo : 2 ≤ cfg.blocks.length)
    (hk : cfg.blocks.length ≤ 255) :
    ∃ r, Reachable ReplicatedRequest.step StoreWorks (.start cfg) r
      ∧ r.workers[0]? = some .asleep ∧ ∀ v ∈ r.workers, isLate v = true := by
  have hmod : cfg.blocks.length % 256 = cfg.blocks.length := Nat.mod_eq_of_lt (by omega)
  obtain ⟨r, hr, hworkers, hcount, -⟩ := reachable_gather hh (cfg.blocks.length - 1) (by omega)
  have hlen := length_workers hr
  have hfirst : r.workers[0]? = some .waiting := by
    rw [hworkers 0 (by omega), if_pos (by omega)]
  have hlast : r.workers[cfg.blocks.length - 1]? = some .preparing := by
    rw [hworkers _ (by omega), if_neg (Nat.lt_irrefl _)]
  have hr₁ := hr.tail (a := ReplicatedRequest.Act.evaluate 0) trivial
    (ReplicatedRequest.Stepped.wait hfirst (by omega)).step_eq
  have hlast₁ : (r.setWorker 0 .drowsy).workers[cfg.blocks.length - 1]? = some .preparing := by
    show (r.workers.set 0 .drowsy)[_]? = _
    rw [getElem?_set_ne (by omega), hlast]
  have hcount₁ : (r.setWorker 0 .drowsy).sharedCount = 1 := by
    show r.sharedCount = 1
    omega
  obtain ⟨r₂, hr₂, hset₂, -⟩ := reachable_release hh hr₁ hlast₁
    (getElem?_eq_getElem (by omega)) hcount₁
  have hfirst₂ : r₂.workers[0]? = some .drowsy := by
    rw [hset₂, getElem?_set_ne (by omega), getElem?_map]
    show ((r.workers.set 0 .drowsy)[0]?).map Worker.wake = _
    rw [getElem?_set_self (by omega)]
    rfl
  have hlt₂ := lt_of_getElem? hfirst₂
  refine ⟨_, hr₂.tail (a := ReplicatedRequest.Act.sleep 0) trivial
    (ReplicatedRequest.Stepped.sleep hfirst₂).step_eq, getElem?_set_self hlt₂, ?_⟩
  intro v hv
  obtain ⟨j, hj⟩ := getElem?_of_mem hv
  rcases getElem?_set_cases hfirst₂ hj with ⟨-, rfl⟩ | ⟨hj0, hj⟩
  · rfl
  -- the others have all been waiting, and so does the last one
  have hjk : j < cfg.blocks.length := by
    rw [← length_workers hr₂]
    exact lt_of_getElem? hj
  rw [hset₂] at hj
  by_cases hjl : cfg.blocks.length - 1 = j
  · rw [← hjl, getElem?_set_self (by rw [length_map]; exact (lt_of_getElem? hlast₁))] at hj
    cases hj
    rfl
  · rw [getElem?_set_ne hjl, getElem?_map] at hj
    have hj : ((r.workers.set 0 .drowsy)[j]?).map Worker.wake = some v := hj
    rw [getElem?_set_ne hj0, hworkers j hjk, if_pos (by omega)] at hj
    cases hj
    rfl

/-! ## How many threads it takes -/

structure Starved (threads : Nat) (s : PooledRequest cfg) : Prop where
  unmapped : s.unmapped = []
  free : s.free = 0
  taken : ∀ w < threads, s.request.workers[w]? = some .asleep
  queued : ∀ w v, s.request.workers[w]? = some v → threads ≤ w → w ∈ s.jobQueue

theorem Starved.asleep (h : Starved threads s) {w : Nat} {v : Worker}
    (hw : s.request.workers[w]? = some v) (htaken : s.Taken w) : v = .asleep := by
  by_cases hlt : w < threads
  · exact Option.some.inj (hw.symm.trans (h.taken w hlt))
  · exact absurd (h.queued w v hw (Nat.le_of_not_lt hlt)) htaken.2

theorem Starved.exhausted (h : Starved threads s)
    (hlt : threads < s.request.workers.length) : Exhausted s := by
  refine ⟨h.free, ?_, fun w v hw htaken _ => ?_⟩
  · exact ne_nil_of_mem (h.queued threads _ (getElem?_eq_getElem hlt) (Nat.le_refl _))
  · exact h.asleep hw htaken

theorem Starved.doomed (h : Starved threads s) (hpos : 1 ≤ threads) : Doomed s := by
  refine ⟨h.unmapped, h.taken 0 hpos, fun w v hw htaken => ?_, Or.inr ⟨h.free, fun w v => h.asleep⟩⟩
  rw [h.asleep hw htaken]
  rfl

theorem exists_starved (hh : cfg.handsOver = true) (hk : cfg.blocks.length ≤ 255)
    (hlt : threads < cfg.blocks.length) :
    ∃ s : PooledRequest cfg, Reachable step (fun _ _ => True) (start cfg threads) s
      ∧ Starved threads s := by
  have hmod : cfg.blocks.length % 256 = cfg.blocks.length := Nat.mod_eq_of_lt (by omega)
  obtain ⟨r, hr, hworkers, -⟩ := reachable_asleep hh (i := threads) (by omega) threads
    (Nat.le_refl _)
  have hlen := length_workers hr
  have hrun := (reachable_handedOut 0 (Nat.le_of_lt hlt)).trans
    (reachable_of_chains rfl hr fun w hw => by
      obtain ⟨hle, hwk⟩ := Decidable.not_not.mp (mt taken_handedOut.mpr hw)
      rw [hworkers w hwk, if_neg (by omega), if_neg (by omega)])
  have hnone : doneCount r = 0 := by
    refine countP_eq_zero.mpr fun v hv => ?_
    obtain ⟨j, hj⟩ := getElem?_of_mem hv
    rw [hworkers j (by rw [← hlen]; exact lt_of_getElem? hj)] at hj
    cases hj
    split <;> decide
  rw [Nat.zero_add, hnone] at hrun
  refine ⟨_, hrun, rfl, rfl, fun w hw => ?_, fun w v hw hle => ?_⟩
  · show r.workers[w]? = _
    rw [hworkers w (by omega), if_pos hw]
  · exact (mem_jobQueue_handedOut 0).mpr ⟨hle, by rw [← hlen]; exact lt_of_getElem? hw⟩

theorem exists_doomed (hh : cfg.handsOver = true) (hk : cfg.blocks.length ≤ 255)
    (htwo : 2 ≤ cfg.blocks.length) (hle : cfg.blocks.length ≤ threads) :
    ∃ s : PooledRequest cfg, Reachable step (fun _ _ => True) (start cfg threads) s
      ∧ Doomed s := by
  obtain ⟨r, hr, hasleep, hlate⟩ := reachable_asleep_late hh htwo hk
  obtain ⟨free, rfl⟩ := Nat.exists_eq_add_of_le' hle
  have hrun := (reachable_handedOut free (Nat.le_refl _)).trans
    (reachable_of_chains rfl hr fun w hw => by
      obtain ⟨hle, hwk⟩ := Decidable.not_not.mp (mt taken_handedOut.mpr hw)
      omega)
  refine ⟨_, hrun, rfl, hasleep, fun w v hw _ => hlate v (mem_of_getElem? hw), Or.inl ?_⟩
  show (List.range cfg.blocks.length).drop cfg.blocks.length = []
  rw [drop_eq_nil_of_le (by rw [length_range])]

/--
**When a batched WRITE gets through the op threads.** They are never all blocked by chains that
wait for one in the queue if and only if there is a thread for every chain. From every state all
chains can be brought to their end if and only if there is one chain: of two and more, one can
sleep through the notification, however many threads there are.
-/
theorem opThreads_suffice (hh : cfg.handsOver = true) (hk : cfg.blocks.length ≤ 255)
    (hthreads : 1 ≤ threads) :
    ((∀ s, Reachable step (fun _ _ => True) (start cfg threads) s → ¬ Exhausted s)
        ↔ cfg.blocks.length ≤ threads)
      ∧ ((∀ s, Reachable step (fun _ _ => True) (start cfg threads) s →
          ∃ t, Reachable step (fun _ _ => True) s t ∧ AllFinished t)
        ↔ cfg.blocks.length = 1) := by
  refine ⟨⟨fun hall => ?_, fun hle s hs => ?_⟩, ⟨fun hall => ?_, fun hone s hs => ?_⟩⟩
  · by_contra hlt
    obtain ⟨s, hs, hstarved⟩ := exists_starved hh hk (Nat.lt_of_not_le hlt)
    have hlen := length_workers (poolInv_reachable (poolInv_start cfg threads) hs).base
    exact hall s hs (hstarved.exhausted (by omega))
  · exact (poolInv_reachable (poolInv_start cfg threads) hs).not_exhausted hle
  · by_contra hne
    have hpos := length_blocks_pos cfg
    obtain ⟨s, hs, hdoomed⟩ : ∃ s : PooledRequest cfg,
        Reachable step (fun _ _ => True) (start cfg threads) s ∧ Doomed s := by
      by_cases hle : cfg.blocks.length ≤ threads
      · exact exists_doomed hh hk (by omega) hle
      · obtain ⟨s, hs, hstarved⟩ := exists_starved hh hk (Nat.lt_of_not_le hle)
        exact ⟨s, hs, hstarved.doomed hthreads⟩
    obtain ⟨t, ht, hfin⟩ := hall s hs
    exact not_allFinished_of_doomed hdoomed ht hfin
  · exact exists_allFinished hh hone hthreads (poolInv_reachable (poolInv_start cfg threads) hs)

/-- A request of one block, and one thread: its chain has been brought to its end. -/
theorem opThreads_suffice_one :
    ∃ s t : PooledRequest (smallConfig 1 .write 2 Nat.two_pos fun _ => 100),
      Reachable step (fun _ _ => True) (start _ 1) s ∧ s.request.workers = [.waiting]
        ∧ ¬ Exhausted s ∧ Reachable step (fun _ _ => True) s t ∧ AllFinished t := by
  have hrun : (run step (fun _ _ => True)
      (start (smallConfig 1 .write 2 Nat.two_pos fun _ => 100) 1)
      [.addTask, .take, .run (.insert 0), .run (.test 0), .run (.decrement 0), .run (.message 0),
        .run (.write 0 2), .run (.notify 0)]).map
      (fun s => decide (s.request.workers = [.waiting])) = some true := by decide +kernel
  obtain ⟨s, hs, htest⟩ := Reachable.of_run_decide hrun
  obtain ⟨hno, hfin⟩ := @opThreads_suffice (smallConfig 1 .write 2 Nat.two_pos fun _ => 100) 1
    rfl (by decide) (Nat.le_refl 1)
  obtain ⟨t, ht, hall⟩ := hfin.mpr rfl s hs
  exact ⟨s, t, hs, htest, hno.mpr (Nat.le_refl 1) s hs, ht, hall⟩

/--
Two blocks. With one thread, the first chain sleeps on it and the second is in the queue. With two
threads, the first chain looked at the count before the second one came, and went to sleep after
that one had notified. Neither request gets to its end.
-/
theorem opThreads_blocked :
    (∃ s : PooledRequest (smallConfig 0 .write 4 (Nat.succ_pos 3) fun b => 100 + 1000 * b),
      Reachable step (fun _ _ => True) (start _ 1) s
        ∧ s.request.workers = [.asleep, .preparing] ∧ s.jobQueue = [1] ∧ Exhausted s
        ∧ ∀ t, Reachable step (fun _ _ => True) s t → ¬ AllFinished t)
      ∧ ∃ s : PooledRequest (smallConfig 0 .write 4 (Nat.succ_pos 3) fun b => 100 + 1000 * b),
        Reachable step (fun _ _ => True) (start _ 2) s
          ∧ s.request.workers = [.asleep, .waiting] ∧ s.jobQueue = []
          ∧ ∀ t, Reachable step (fun _ _ => True) s t → ¬ AllFinished t := by
  constructor
  · have hrun : (run step (fun _ _ => True)
        (start (smallConfig 0 .write 4 (Nat.succ_pos 3) fun b => 100 + 1000 * b) 1)
        [.addTask, .addTask, .take, .run (.insert 0), .run (.test 0), .run (.decrement 0),
          .run (.evaluate 0), .run (.sleep 0)]).map
        (fun s => decide (s.request.workers = [.asleep, .preparing] ∧ s.jobQueue = [1]
          ∧ s.unmapped = [] ∧ s.free = 0)) = some true := by decide +kernel
    obtain ⟨s, hs, hworkers, hqueue, hunmapped, hfree⟩ := Reachable.of_run_decide hrun
    have hstarved : Starved 1 s := by
      refine ⟨hunmapped, hfree, fun w hw => ?_, fun w v hw hle => ?_⟩
      · rw [Nat.lt_one_iff.mp hw, hworkers]
        rfl
      · have hlt := lt_of_getElem? hw
        rw [hworkers, length_cons, length_singleton] at hlt
        rw [hqueue, mem_singleton]
        omega
    exact ⟨s, hs, hworkers, hqueue, hstarved.exhausted (by rw [hworkers]; decide),
      fun t ht => not_allFinished_of_doomed (hstarved.doomed (Nat.le_refl 1)) ht⟩
  · have hrun : (run step (fun _ _ => True)
        (start (smallConfig 0 .write 4 (Nat.succ_pos 3) fun b => 100 + 1000 * b) 2)
        [.addTask, .addTask, .take, .take, .run (.insert 0), .run (.test 0), .run (.decrement 0),
          .run (.evaluate 0), .run (.insert 1), .run (.test 1), .run (.decrement 1),
          .run (.write 1 2), .run (.write 1 2), .run (.notify 1), .run (.sleep 0)]).map
        (fun s => decide (s.request.workers = [.asleep, .waiting] ∧ s.jobQueue = []
          ∧ s.unmapped = [])) = some true := by decide +kernel
    obtain ⟨s, hs, hworkers, hqueue, hunmapped⟩ := Reachable.of_run_decide hrun
    have hdoomed : Doomed s := by
      refine ⟨hunmapped, by rw [hworkers]; rfl, fun w v hw _ => ?_, Or.inl hqueue⟩
      have hv := mem_of_getElem? hw
      rw [hworkers] at hv
      simp only [mem_cons, not_mem_nil, or_false] at hv
      rcases hv with rfl | rfl <;> rfl
    exact ⟨s, hs, hworkers, hqueue, fun t ht => not_allFinished_of_doomed hdoomed ht⟩

end HDCS.Proof
