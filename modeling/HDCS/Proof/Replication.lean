import HDCS.Proof.Completion
import HDCS.Proof.MaximalRuns

/-!
# How often a request is completed

The completion that wraps the client's waits for `replica_size + 1` calls. It gets
one for every message that is answered, and one each time `pending_requests` comes
to zero (`Accounted`). The first number is fixed when the batch is submitted: a
message for every segment and replica, and none for a request that is not handed
to the batch.

So the two numbers agree only for a WRITE that is submitted as one segment, or
where there are no replicas.
-/

namespace HDCS.Proof

open Lib ReplicatedRequest Lib.Machine List

variable {cfg : ReplicatedConfig} {s s' : ReplicatedRequest cfg}

def doneCount (s : ReplicatedRequest cfg) : Nat := s.workers.countP (· == .finished)

/-- How often a `uint32_t` comes to zero when it is decremented `n` times from `n`. -/
def zeros (n : Nat) : Nat := (n + (2 ^ 32 - 1)) / 2 ^ 32

theorem zeros_eq_one {n : Nat} (hpos : 0 < n) (hn : n ≤ 255) : zeros n = 1 := by
  unfold zeros
  omega

structure Accounted (owed : Nat) (s : ReplicatedRequest cfg) : Prop where
  length : s.workers.length = cfg.blocks.length
  pending : s.pending = (cfg.blocks.length - doneCount s) % 2 ^ 32
  calls : s.calls.length + owed + s.inFlight.length + zeros (cfg.blocks.length - doneCount s)
    = s.sent.length + zeros cfg.blocks.length
  /-- A report that came early is one for which calls are still missing. -/
  early : ∀ x ∈ s.client, x.complete = false →
    cfg.replicas + 2 ≤ s.sent.length + zeros cfg.blocks.length
  onTime : ∀ x ∈ s.client, x.complete = true → doneCount s = cfg.blocks.length

theorem Accounted.done_le {owed : Nat} (h : Accounted owed s) :
    doneCount s ≤ cfg.blocks.length := by
  rw [← h.length]
  exact countP_le_length

theorem Accounted.frame {owed : Nat} (h : Accounted owed s)
    (hlen : s'.workers.length = s.workers.length) (hdone : doneCount s' = doneCount s)
    (hpending : s'.pending = s.pending) (hcalls : s'.calls = s.calls)
    (hclient : s'.client = s.client)
    (hsent : ∃ n, s'.sent.length = s.sent.length + n
      ∧ s'.inFlight.length = s.inFlight.length + n) : Accounted owed s' := by
  obtain ⟨n, hsent, hflight⟩ := hsent
  constructor
  · rw [hlen, h.length]
  · rw [hpending, hdone, h.pending]
  · have := h.calls
    rw [hcalls, hflight, hsent, hdone]
    omega
  · intro x hx hearly
    have := h.early x (hclient ▸ hx) hearly
    omega
  · rw [hclient, hdone]
    exact h.onTime

theorem isComplete_iff {owed : Nat} (h : Accounted owed s) :
    s.isComplete = true ↔ doneCount s = cfg.blocks.length ∧ s.inFlight = [] := by
  unfold isComplete
  rw [Bool.and_eq_true, List.isEmpty_iff, all_eq_true, ← countP_eq_length, h.length]
  exact Iff.rfl

/-- **A call that was owed is made.** -/
theorem Accounted.complete {c : Call} (h : Accounted 1 s) (hfwd : Forwarded s) :
    Accounted 0 (s.complete c) := by
  have hcalls := h.calls
  have hle := h.done_le
  have hclient : ∀ x ∈ (s.complete c).client,
      x ∈ s.client ∨ x = ⟨c.status, s.isComplete⟩ ∧ cfg.replicas ≤ s.calls.length :=
    fun x hx => hfwd.mem_client hx
  obtain ⟨_, _, _, heq⟩ := complete_eq c s
  rw [heq] at hclient ⊢
  constructor
  · exact h.length
  · exact h.pending
  · show (s.calls ++ [c]).length + 0 + s.inFlight.length
      + zeros (cfg.blocks.length - doneCount s) = _
    rw [length_append, length_singleton]
    exact hcalls
  · intro x hx hearly
    rcases hclient x hx with hold | ⟨rfl, hmany⟩
    · exact h.early x hold hearly
    · -- something is missing, so there is another call to come
      show cfg.replicas + 2 ≤ s.sent.length + zeros cfg.blocks.length
      have hmissing : ¬ (doneCount s = cfg.blocks.length ∧ s.inFlight = []) := by
        rw [← isComplete_iff h]
        exact (Bool.eq_false_iff.mp hearly)
      have hmore : 0 < s.inFlight.length + zeros (cfg.blocks.length - doneCount s) := by
        by_cases hfin : doneCount s = cfg.blocks.length
        · have := length_pos_of_ne_nil fun hnil => hmissing ⟨hfin, hnil⟩
          omega
        · unfold zeros
          omega
      omega
  · intro x hx honTime
    rcases hclient x hx with hold | ⟨rfl, _⟩
    · exact h.onTime x hold honTime
    · exact ((isComplete_iff h).mp honTime).1

theorem Accounted.finish {w : Nat} {v : Worker} (h : Accounted 0 s) (hfwd : Forwarded s)
    (hw : s.workers[w]? = some v) (hv : v ≠ .finished) :
    Accounted 0 (s.setWorker w .finished).completeBlock := by
  have hadd := countP_set_add (· == Worker.finished) .finished hw
  rw [beq_false_of_ne hv, beq_self_eq_true, Bool.toNat_false, Bool.toNat_true] at hadd
  have hdone : doneCount (s.setWorker w .finished) = doneCount s + 1 := hadd
  have hlen : (s.setWorker w .finished).workers.length = cfg.blocks.length :=
    length_set.trans h.length
  have hle : doneCount s + 1 ≤ cfg.blocks.length := by
    rw [← hdone, ← hlen]
    exact countP_le_length
  have hpending : (s.pending + (2 ^ 32 - 1)) % 2 ^ 32
      = (cfg.blocks.length - (doneCount s + 1)) % 2 ^ 32 := by
    have := h.pending
    omega
  have hcalls := h.calls
  -- the request before the call, if there is one
  have hbefore : ∀ owed, zeros (cfg.blocks.length - doneCount s)
        = owed + zeros (cfg.blocks.length - (doneCount s + 1)) →
      Accounted owed ({ s.setWorker w .finished with
        pending := (s.pending + (2 ^ 32 - 1)) % 2 ^ 32, status := s.status + 0 } :
          ReplicatedRequest cfg) := by
    intro owed howed
    have hdone' : doneCount ({ s.setWorker w .finished with
        pending := (s.pending + (2 ^ 32 - 1)) % 2 ^ 32, status := s.status + 0 } :
          ReplicatedRequest cfg) = doneCount s + 1 := hadd
    constructor
    · exact hlen
    · rw [hdone']
      exact hpending
    · rw [hdone']
      have hsum : s.calls.length + owed + s.inFlight.length
          + zeros (cfg.blocks.length - (doneCount s + 1))
          = s.sent.length + zeros cfg.blocks.length := by omega
      exact hsum
    · exact h.early
    · intro x hx honTime
      have := h.onTime x hx honTime
      omega
  unfold completeBlock
  dsimp only
  split
  · rename_i hzero
    have hz : (cfg.blocks.length - (doneCount s + 1)) % 2 ^ 32 = 0 := hpending.symm.trans hzero
    refine (hbefore 1 ?_).complete (hfwd.frame (Int.add_zero _) rfl rfl rfl rfl)
    unfold zeros
    omega
  · rename_i hzero
    have hz : ¬ (cfg.blocks.length - (doneCount s + 1)) % 2 ^ 32 = 0 :=
      fun hc => hzero (hpending.trans hc)
    refine hbefore 0 ?_
    unfold zeros
    omega

theorem accounted_step {a : Act} (h : Accounted 0 s) (hfwd : Forwarded s)
    (hs : Stepped s a s') : Accounted 0 s' := by
  have hlen := length_step hs
  have hquiet : ∀ {v v' : Worker} {w : Nat}, s.workers[w]? = some v → v ≠ .finished →
      v' ≠ .finished → (s.workers.set w v').countP (· == .finished) = doneCount s := by
    intro v v' w hw hv hv'
    exact countP_set_eq _ hw (by rw [beq_false_of_ne hv, beq_false_of_ne hv'])
  cases hs with
  | insert hw _ _ | test hw _ | again hw _ | decrement hw _ | last hw _ | write hw | pass hw _
  | wait hw _ | sleep hw =>
    exact h.frame hlen (hquiet hw (by simp) (by simp)) rfl rfl rfl ⟨0, rfl, rfl⟩
  | message hw =>
    exact h.frame hlen (hquiet hw (by simp) (by simp)) rfl rfl rfl ⟨1, length_append, length_append⟩
  | notify hw =>
    exact h.frame hlen (countP_notify (fun v => by cases v <;> rfl) hw rfl) rfl rfl rfl
      ⟨0, rfl, rfl⟩
  | finish hw hv =>
    refine h.finish hfwd hw ?_
    rcases hv with rfl | ⟨rfl, _⟩ <;> simp
  | @reply i m ret hm =>
    refine Accounted.complete ⟨h.length, h.pending, ?_, h.early, h.onTime⟩
      (hfwd.frame rfl rfl rfl rfl rfl)
    have hi := lt_of_getElem? hm
    have hcalls := h.calls
    show s.calls.length + 1 + (s.inFlight.eraseIdx i).length
      + zeros (cfg.blocks.length - doneCount s) = _
    rw [length_eraseIdx_of_lt hi]
    show _ = s.sent.length + zeros cfg.blocks.length
    omega

theorem accounted_reachable (h : Reachable step StoreWorks (start cfg) s) :
    Accounted 0 s := by
  induction h with
  | init =>
    have hdone : doneCount (start cfg) = 0 := by
      show (List.replicate cfg.blocks.length Worker.preparing).countP _ = 0
      rw [countP_replicate]
      rfl
    refine ⟨length_replicate .., by rw [hdone]; rfl, by rw [hdone]; rfl, ?_, ?_⟩
    · exact fun x hx => absurd hx (by simp [start])
    · exact fun x hx => absurd hx (by simp [start])
  | tail hr _ hs ih =>
    exact accounted_step ih (forwarded_reachable (hr.mono fun _ _ _ => trivial)) (step_cases hs)

/-! ## Requests that are not handed to the batch -/

structure Unbatched (s : ReplicatedRequest cfg) : Prop where
  workers : ∀ v ∈ s.workers, v = .preparing ∨ v = .finished
  sent : s.sent = []
  chain : s.chain = []

theorem unbatched_reachable {ok : ReplicatedRequest cfg → Act → Prop} (hh : cfg.handsOver = false)
    (h : Reachable step ok (start cfg) s) : Unbatched s := by
  induction h with
  | init =>
    refine ⟨?_, rfl, rfl⟩
    intro v hv
    exact Or.inl (mem_replicate.mp hv).2
  | @tail s s' a hr _ hs ih =>
    have hno : ∀ {w : Nat} {v : Worker}, s.workers[w]? = some v → v ≠ .preparing →
        v ≠ .finished → Unbatched s' := by
      intro w v hw hp hf
      rcases ih.workers v (mem_of_getElem? hw) with hv | hv
      · exact absurd hv hp
      · exact absurd hv hf
    cases step_cases hs with
    | insert _ _ hh' => rw [hh] at hh'; cases hh'
    | @finish w v _ _ =>
      obtain ⟨_, _, _, heq⟩ := completeBlock_eq (s.setWorker w .finished)
      rw [heq]
      exact ⟨forall_mem_set ih.workers (Or.inr rfl), ih.sent, ih.chain⟩
    | @reply i m ret _ =>
      obtain ⟨_, _, _, heq⟩ := complete_eq ⟨.replica, ret⟩ _
      rw [heq]
      exact ⟨ih.workers, ih.sent, ih.chain⟩
    | test hw _ | again hw _ | decrement hw _ | last hw _ | message hw | write hw | notify hw
    | pass hw _ | wait hw _ | sleep hw => exact hno hw (by simp) (by simp)

/-! ## The end of a run -/

/-- Nothing more can happen. -/
def Ended (s : ReplicatedRequest cfg) : Prop := ∀ a, StoreWorks s a → s.step a = none

theorem Ended.not_stepped {a : Act} (h : Ended s) (hok : StoreWorks s a) : ¬ Stepped s a s' := by
  intro hs
  have := hs.step_eq
  rw [h a hok] at this
  cases this

theorem Ended.inFlight (h : Ended s) : s.inFlight = [] := by
  cases hm : s.inFlight with
  | nil => rfl
  | cons m ms =>
    exact (h.not_stepped (a := Act.reply 0 0) trivial
      (Stepped.reply (by rw [hm]; exact getElem?_cons_zero))).elim

theorem Ended.worker (h : Ended s) (hlen : s.workers.length = cfg.blocks.length) :
    ∀ v ∈ s.workers, v = .finished ∨ v = .asleep := by
  intro v hv
  obtain ⟨w, hw⟩ := getElem?_of_mem hv
  have hlt : w < cfg.blocks.length := hlen ▸ (lt_of_getElem? hw)
  cases v with
  | finished => exact Or.inl rfl
  | asleep => exact Or.inr rfl
  | preparing =>
    cases hh : cfg.handsOver with
    | true =>
      exact absurd (Stepped.insert hw (getElem?_eq_getElem hlt) hh)
        (h.not_stepped (a := Act.insert w) trivial)
    | false =>
      exact absurd (Stepped.finish hw (Or.inr ⟨rfl, hh⟩))
        (h.not_stepped (a := Act.finish w) trivial)
  | inserted =>
    by_cases hc : s.sharedCount = -1
    · exact absurd (Stepped.again hw hc) (h.not_stepped (a := Act.test w) trivial)
    · exact absurd (Stepped.test hw hc) (h.not_stepped (a := Act.test w) trivial)
  | tested =>
    by_cases hc : s.sharedCount = 1
    · exact absurd (Stepped.last hw hc) (h.not_stepped (a := Act.decrement w) trivial)
    · exact absurd (Stepped.decrement hw hc) (h.not_stepped (a := Act.decrement w) trivial)
  | submitting ops notifies =>
    cases ops with
    | nil => exact absurd (Stepped.notify hw) (h.not_stepped (a := Act.notify w) trivial)
    | cons op ops =>
      cases op with
      | message x replica =>
        exact absurd (Stepped.message hw) (h.not_stepped (a := Act.message w) trivial)
      | write x =>
        exact (h.not_stepped (a := Act.write w 0) (Int.le_refl 0) (Stepped.write hw)).elim
  | waiting =>
    by_cases hc : s.sharedCount = 0
    · exact absurd (Stepped.pass hw hc) (h.not_stepped (a := Act.evaluate w) trivial)
    · exact absurd (Stepped.wait hw hc) (h.not_stepped (a := Act.evaluate w) trivial)
  | drowsy => exact absurd (Stepped.sleep hw) (h.not_stepped (a := Act.sleep w) trivial)
  | returned =>
    exact absurd (Stepped.finish hw (Or.inl rfl)) (h.not_stepped (a := Act.finish w) trivial)

theorem ended_of_rest (hrest : ∀ v ∈ s.workers, v = .finished ∨ v = .asleep)
    (hflight : s.inFlight = []) : Ended s := by
  intro a _
  cases hs : s.step a with
  | none => rfl
  | some s' =>
    have hno : ∀ {w : Nat} {v : Worker}, s.workers[w]? = some v → v ≠ .finished →
        v ≠ .asleep → some s' = none := by
      intro w v hw hf ha
      rcases hrest v (mem_of_getElem? hw) with hv | hv
      · exact absurd hv hf
      · exact absurd hv ha
    cases step_cases hs with
    | finish hw hv => rcases hv with rfl | ⟨rfl, _⟩ <;> exact hno hw (by simp) (by simp)
    | reply hm => rw [hflight] at hm; cases hm
    | insert hw _ _ | test hw _ | again hw _ | decrement hw _ | last hw _ | message hw | write hw
    | notify hw | pass hw _ | wait hw _ | sleep hw => exact hno hw (by simp) (by simp)

theorem done_eq_iff (hlen : s.workers.length = cfg.blocks.length) :
    doneCount s = cfg.blocks.length ↔ ∀ v ∈ s.workers, v = .finished := by
  unfold doneCount
  rw [← hlen, countP_eq_length]
  simp

/-- The client is told once, when everyone is through, and all calls were expected. -/
def CountedExactly (s : ReplicatedRequest cfg) : Prop :=
  s.calls.length = cfg.replicas + 1 ∧ ∃ x, s.client = [x] ∧ x.complete = true

theorem not_countedExactly (h : ∀ x ∈ s.client, x.complete = false) : ¬ CountedExactly s := by
  rintro ⟨_, x, hclient, hcomplete⟩
  rw [h x (by rw [hclient]; exact mem_singleton_self x)] at hcomplete
  cases hcomplete

theorem Forwarded.length_client (h : Forwarded s) (hcalls : s.calls.length = cfg.replicas + 1) :
    s.client.length = 1 := by
  have hlen := congrArg List.length h.client
  rw [length_map, length_map] at hlen
  rw [hlen]
  unfold deciding
  split
  · omega
  · rw [getElem?_eq_getElem (by omega)]
    rfl

theorem countedExactly_of_ended (h : Reachable step StoreWorks (start cfg) s)
    (hend : Ended s) :
    CountedExactly s ↔ doneCount s = cfg.blocks.length
      ∧ s.sent.length + zeros cfg.blocks.length = cfg.replicas + 1 := by
  have hacc := accounted_reachable h
  have hfwd := forwarded_reachable (h.mono fun _ _ _ => trivial)
  have hcalls := hacc.calls
  rw [hend.inFlight, length_nil] at hcalls
  constructor
  · rintro ⟨hlen, x, hclient, hcomplete⟩
    have hdone := hacc.onTime x (by rw [hclient]; exact mem_singleton_self x) hcomplete
    refine ⟨hdone, ?_⟩
    rw [hdone, Nat.sub_self] at hcalls
    have : zeros 0 = 0 := rfl
    omega
  · rintro ⟨hdone, hnum⟩
    rw [hdone, Nat.sub_self] at hcalls
    have hzero : zeros 0 = 0 := rfl
    have hlen : s.calls.length = cfg.replicas + 1 := by omega
    obtain ⟨x, hclient⟩ := length_eq_one_iff.mp (hfwd.length_client hlen)
    refine ⟨hlen, x, hclient, ?_⟩
    -- a report that was early would mean one call more
    by_contra hnot
    have := hacc.early x (by rw [hclient]; exact mem_singleton_self x) (Bool.not_eq_true _ ▸ hnot)
    omega

theorem sent_of_done (hh : cfg.handsOver = true) (hk : cfg.blocks.length ≤ 255)
    (h : Reachable step StoreWorks (start cfg) s)
    (hdone : ∀ v ∈ s.workers, v = .finished) :
    s.sent.length = cfg.replicas * s.chain.length := by
  have hlen := length_workers h
  have hpos := length_blocks_pos cfg
  rcases phase_reachable hh hk h with hphase | ⟨w, ops, hphase⟩ | hphase
  -- in the first two phases there is someone who is not through
  · obtain ⟨v, hv⟩ := exists_mem_of_length_pos (Nat.lt_of_lt_of_eq hpos hlen.symm)
    have hearly := hphase.early v hv
    rw [hdone v hv] at hearly
    cases hearly
  · cases hdone _ (mem_of_getElem? hphase.worker)
  · rw [hphase.sent, messages_submitRequest]

theorem blocks_le_of_done (hh : cfg.handsOver = true)
    (h : Reachable step StoreWorks (start cfg) s)
    (hdone : ∀ v ∈ s.workers, v = .finished) : cfg.blocks.length ≤ 255 := by
  have hback : backCount s = s.workers.length :=
    countP_eq_length.mpr fun v hv => by rw [hdone v hv]; rfl
  have hle := (passing_reachable hh h).back
  rw [hback, length_workers h] at hle
  omega

/-! ## Every run ends -/

def reserve (cfg : ReplicatedConfig) : Nat :=
  2 * (cfg.blocks.length * (cfg.replicas + 1)) + 2 * cfg.blocks.length + 4

def weight (cfg : ReplicatedConfig) : Worker → Nat
  | .preparing => reserve cfg + 3
  | .inserted => reserve cfg + 2
  | .tested => reserve cfg + 1
  | .submitting ops notifies =>
    4 + 2 * ops.length + if notifies then 2 * cfg.blocks.length else 0
  | .waiting => 3
  | .drowsy => 2
  | .asleep => 1
  | .returned => 1
  | .finished => 0

/-- What is left to happen. -/
def work (s : ReplicatedRequest cfg) : Nat :=
  (s.workers.map (weight cfg)).sum + s.inFlight.length

theorem work_lt_of_set {w : Nat} {v v' : Worker} (hw : s.workers[w]? = some v)
    (hset : s'.workers = s.workers.set w v')
    (hlt : weight cfg v' + s'.inFlight.length < weight cfg v + s.inFlight.length) :
    work s' < work s := by
  have hadd := sum_map_set_add (weight cfg) v' hw
  unfold work
  rw [hset]
  omega

theorem length_submitRequest (replicas : Nat) (c : SegmentChain) :
    (submitRequest replicas c).length = c.length * (replicas + 1) := by
  induction c with
  | nil => simp [submitRequest]
  | cons x c ih =>
    have hcons : submitRequest replicas (x :: c)
        = ((List.range replicas).map (SubmitOp.message x) ++ [.write x])
          ++ submitRequest replicas c := flatMap_cons
    rw [hcons, length_append, ih, length_append, length_map, length_range,
      length_singleton, length_cons, Nat.succ_mul, Nat.add_comm]

theorem length_chain_le {ok : ReplicatedRequest cfg → Act → Prop}
    (h : Reachable step ok (start cfg) s) : s.chain.length ≤ cfg.blocks.length := by
  cases hh : cfg.handsOver with
  | true =>
    obtain ⟨ids, hids⟩ := madeOf_reachable hh h
    exact hids.spec.1
  | false =>
    rw [(unbatched_reachable hh h).chain]
    exact Nat.zero_le _

theorem sum_wake_le (cfg : ReplicatedConfig) (l : List Worker) :
    ((l.map Worker.wake).map (weight cfg)).sum ≤ (l.map (weight cfg)).sum + 2 * l.length := by
  induction l with
  | nil => simp
  | cons v l ih =>
    have hv : weight cfg v.wake ≤ weight cfg v + 2 := by cases v <;> simp [Worker.wake, weight]
    simp only [map_cons, sum_cons, length_cons]
    omega

/-- **Every step leaves less to do.** -/
theorem work_lt {ok : ReplicatedRequest cfg → Act → Prop} {a : Act}
    (h : Reachable step ok (start cfg) s) (hs : Stepped s a s') : work s' < work s := by
  -- the reserve pays for the callback, whoever runs it
  have hops : 2 * (submitRequest cfg.replicas s.chain).length + 2 * cfg.blocks.length + 4
      ≤ reserve cfg := by
    have hmul := Nat.mul_le_mul_right (cfg.replicas + 1) (length_chain_le h)
    rw [length_submitRequest]
    unfold reserve
    omega
  cases hs with
  | insert hw _ _ | test hw _ | decrement hw _ | pass hw _ | wait hw _ | sleep hw =>
    refine work_lt_of_set hw rfl ?_
    simp only [weight, setWorker]
    omega
  | again hw _ =>
    refine work_lt_of_set hw rfl ?_
    simp only [weight, setWorker, Bool.false_eq_true, if_false]
    omega
  | last hw _ =>
    refine work_lt_of_set hw rfl ?_
    simp only [weight, setWorker, if_true]
    omega
  | message hw =>
    refine work_lt_of_set hw rfl ?_
    simp only [weight, setWorker, length_cons, length_append, length_nil]
    omega
  | @write w x ops notifies ret hw =>
    refine work_lt_of_set hw rfl ?_
    have hle : (if ret < 0 then [] else ops).length ≤ ops.length := by
      split
      · exact Nat.zero_le _
      · exact Nat.le_refl _
    simp only [weight, setWorker, length_cons]
    omega
  | @notify w notifies hw =>
    have hlen := length_workers h
    have hwake := sum_wake_le cfg s.workers
    cases notifies with
    | true =>
      have hw' : (s.workers.map Worker.wake)[w]? = some (.submitting [] true) := by
        rw [getElem?_map, hw]
        rfl
      -- two for each worker that is woken, at most
      have hadd := sum_map_set_add (weight cfg) .waiting hw'
      simp only [weight, if_true, length_nil] at hadd
      show (((s.workers.map Worker.wake).set w .waiting).map (weight cfg)).sum
        + s.inFlight.length < (s.workers.map (weight cfg)).sum + s.inFlight.length
      omega
    | false =>
      refine work_lt_of_set hw rfl ?_
      simp only [weight, setWorker, Bool.false_eq_true, if_false]
      omega
  | @finish w v hw hv =>
    obtain ⟨_, _, _, heq⟩ := completeBlock_eq (s.setWorker w .finished)
    rw [heq]
    refine work_lt_of_set hw rfl ?_
    rcases hv with rfl | ⟨rfl, _⟩
    · simp only [weight, setWorker]
      omega
    · simp only [weight, setWorker]
      omega
  | @reply i m ret hm =>
    obtain ⟨_, _, _, heq⟩ := complete_eq ⟨.replica, ret⟩ _
    rw [heq]
    have hi := lt_of_getElem? hm
    show (s.workers.map (weight cfg)).sum + (s.inFlight.eraseIdx i).length
      < (s.workers.map (weight cfg)).sum + s.inFlight.length
    rw [length_eraseIdx_of_lt hi]
    omega

/-! ## The buffers -/

/-- What is handed in for the blocks. -/
def callsOf (cfg : ReplicatedConfig) : List Prepared := cfg.blocks.map fun b => ⟨b, cfg.buffer b⟩

/-- The buffers of neighbouring blocks touch. -/
def BuffersTouch (cfg : ReplicatedConfig) : Prop :=
  ∀ b ∈ cfg.blocks, b + 1 ∈ cfg.blocks → cfg.buffer (b + 1) = cfg.buffer b + cfg.blockSize

theorem exists_first_block (cfg : ReplicatedConfig) :
    ∃ first, ∀ b, b ∈ cfg.blocks ↔ first ≤ b ∧ b < first + cfg.blocks.length := by
  have hblocks := (cut_createBlockRequests cfg.blockSize_pos 0 cfg.length_pos).blocks
    cfg.blockSize_pos
  refine ⟨cfg.request.offset / cfg.blockSize, fun b => ?_⟩
  rw [ReplicatedConfig.blocks, length_map, ← mem_range'_1, ← hblocks]

/-- **One segment is written where all buffers follow each other.** -/
theorem length_chain_eq_one_iff (hh : cfg.handsOver = true)
    {ok : ReplicatedRequest cfg → Act → Prop} (h : Reachable step ok (start cfg) s)
    (hend : Ended s) (hfollow : BuffersFollow cfg.blockSize (callsOf cfg)) :
    s.chain.length = 1 ↔ BuffersTouch cfg := by
  obtain ⟨ids, hids⟩ := madeOf_reachable hh h
  have hbs := cfg.blockSize_pos
  -- everything has been handed in
  have hall : ∀ b ∈ cfg.blocks, b ∈ ids := by
    intro b hb
    obtain ⟨w, hw⟩ := mem_iff_getElem?.mp hb
    have hlt : w < s.workers.length := by
      rw [length_workers h]
      exact lt_of_getElem? hw
    rw [hids.mem w b hw, getElem?_map, getElem?_eq_getElem hlt]
    rcases hend.worker (length_workers h) _ (getElem_mem hlt) with hv | hv <;> rw [hv] <;> rfl
  have hperm : (ids.map fun b => (⟨b, cfg.buffer b⟩ : Prepared)).Perm (callsOf cfg) :=
    ((perm_ext_iff_of_nodup hids.nodup (nodup_blocks cfg)).mpr fun b =>
      ⟨fun hb => hids.sub hb, hall b⟩).map _
  have hmax : MaximalRuns cfg.blockSize (callsOf cfg) s.chain := by
    rw [hids.chain]
    refine (maximal_prepareAll hbs _ ?_ fun p hp q hq =>
      hfollow p (hperm.mem_iff.mp hp) q (hperm.mem_iff.mp hq)).perm hperm
    rw [map_map]
    exact (map_id ids).symm ▸ hids.nodup
  constructor
  · intro hone b hb hnext
    obtain ⟨x, hx⟩ := length_eq_one_iff.mp hone
    have hbrings : ∀ b ∈ cfg.blocks, Brings cfg.blockSize x ⟨b, cfg.buffer b⟩ := by
      intro b hb
      obtain ⟨y, hy, hbrings⟩ := hmax.covers _ (mem_map_of_mem hb)
      rw [hx] at hy
      rwa [mem_singleton.mp hy] at hbrings
    obtain ⟨k, -, hk⟩ := hbrings b hb
    obtain ⟨k', -, hk'⟩ := hbrings _ hnext
    obtain ⟨hblock, hdata⟩ := Prepared.mk.inj hk
    obtain ⟨hblock', hdata'⟩ := Prepared.mk.inj hk'
    have heq : k' = k + 1 := by omega
    rw [hdata, hdata', heq, Nat.succ_mul, Nat.add_assoc]
  · intro htouch
    -- a segment that does not begin with the first block could be longer
    obtain ⟨first, hblocks⟩ := exists_first_block cfg
    have hfirst : ∀ x ∈ s.chain, x.block = first := by
      intro x hx
      obtain ⟨b, hmem, heq⟩ := mem_map.mp (hmax.maximal x hx).run.first
      obtain ⟨hb, hdata⟩ := Prepared.mk.inj heq
      rw [← hb]
      have hle := (hblocks b).mp hmem
      by_contra hne
      have hprev : b - 1 ∈ cfg.blocks := by
        rw [hblocks]
        omega
      have hsucc : b - 1 + 1 = b := by omega
      refine (hmax.maximal x hx).start _ (mem_map_of_mem hprev) ?_
      have hbuf := htouch _ hprev (hsucc.symm ▸ hmem)
      rw [hsucc] at hbuf
      exact hbuf.symm.trans hdata
    have hle : s.chain.length ≤ 1 := by
      have hpairs := hmax.sorted
      match hc : s.chain with
      | [] | [_] => simp
      | x :: y :: c =>
        rw [hc] at hfirst hpairs
        have hlt := (pairwise_cons.mp hpairs).1 y mem_cons_self
        rw [hfirst x (by simp), hfirst y (by simp)] at hlt
        exact absurd hlt (Nat.lt_irrefl _)
    obtain ⟨b, hb⟩ := exists_mem_of_length_pos (length_blocks_pos cfg)
    obtain ⟨x, hx, -⟩ := hmax.covers _ (mem_map_of_mem hb)
    exact Nat.le_antisymm hle (length_pos_of_mem hx)

/-! ## Going to sleep -/

/-- All workers have lowered the count, and the callback of the batch has notified them. -/
def Notified (s : ReplicatedRequest cfg) : Prop := ∀ v ∈ s.workers, isLate v = true

/-- Nobody goes to sleep after `notify_all`. -/
def SleepsInTime (s : ReplicatedRequest cfg) (a : Act) : Prop :=
  StoreWorks s a ∧ ∀ w, a = .sleep w → ¬ Notified s

theorem asleep_reachable {ok : ReplicatedRequest cfg → Act → Prop} {w : Nat} (hn : Notified s)
    (hw : s.workers[w]? = some .asleep) (h : Reachable step ok s s') :
    Notified s' ∧ s'.workers[w]? = some .asleep := by
  induction h with
  | init => exact ⟨hn, hw⟩
  | @tail t t' a _ _ hs ih =>
    obtain ⟨hn, hw⟩ := ih
    have hstep : ∀ i v v', t.workers[i]? = some v → v ≠ .asleep → isLate v' = true →
        (∀ u ∈ t.workers.set i v', isLate u = true) ∧ (t.workers.set i v')[w]? = some .asleep := by
      intro i v v' hi hv hlate
      have hne : i ≠ w := by
        rintro rfl
        exact hv (Option.some.inj (hi.symm.trans hw))
      exact ⟨forall_mem_set hn hlate, by rw [getElem?_set_ne hne]; exact hw⟩
    have hout : ∀ i v, t.workers[i]? = some v → isLate v = true :=
      fun i v hi => hn v (mem_of_getElem? hi)
    cases step_cases hs with
    | insert hi _ _ | test hi _ | again hi _ | decrement hi _ | last hi _ | message hi | write hi
    | notify hi => cases hout _ _ hi
    | pass hi _ | wait hi _ | sleep hi => exact hstep _ _ _ hi nofun rfl
    | @finish i v hi hv =>
      obtain ⟨_, _, _, heq⟩ := completeBlock_eq (setWorker i .finished t)
      rw [heq]
      exact hstep _ _ _ hi (by rcases hv with rfl | ⟨rfl, -⟩ <;> nofun) rfl
    | @reply i m ret _ =>
      obtain ⟨_, _, _, heq⟩ := complete_eq ⟨.replica, ret⟩ _
      rw [heq]
      exact ⟨hn, hw⟩

theorem sleep_late {w : Nat} (hn : Notified s) (hs : s.step (.sleep w) = some s') :
    Notified s' ∧ s'.workers[w]? = some .asleep := by
  cases step_cases hs with
  | sleep hw => exact ⟨forall_mem_set hn rfl,
      getElem?_set_self (lt_of_getElem? hw)⟩

theorem Gathering.not_notified (h : Gathering s) (hlen : s.workers.length = cfg.blocks.length) :
    ¬ Notified s := by
  intro hn
  have hpast : pastCount s = s.workers.length := countP_eq_length.mpr fun v hv => by
    have hlate := hn v hv
    cases v <;> first | rfl | cases hlate
  exact absurd h.lt (by omega)

theorem late_of_set {l : List Worker} {i : Nat} {v v' : Worker} (hi : l[i]? = some v)
    (hv : isLate v = true) (h : ∀ u ∈ l.set i v', isLate u = true) : ∀ u ∈ l, isLate u = true := by
  intro u hu
  obtain ⟨j, hj⟩ := mem_iff_getElem?.mp hu
  by_cases hij : i = j
  · rw [← hij, hi] at hj
    rwa [← Option.some.inj hj]
  · exact h u (mem_of_getElem? ((getElem?_set_ne hij).trans hj))

theorem asleep_inTime (hh : cfg.handsOver = true) (hk : cfg.blocks.length ≤ 255)
    (h : Reachable step SleepsInTime (start cfg) s) :
    Worker.asleep ∈ s.workers → ¬ Notified s := by
  induction h with
  | init => exact fun hmem => absurd (eq_of_mem_replicate hmem) nofun
  | @tail t t' a hr hok hs ih =>
    have hr' := hr.mono fun _ _ ha => ha.1
    have hphase := phase_reachable hh hk hr'
    have hlen := length_workers hr'
    -- a step of a worker that stays late
    have hstep : ∀ i v v', t.workers[i]? = some v → isLate v = true → v' ≠ .asleep →
        Worker.asleep ∈ t.workers.set i v' → ¬ ∀ u ∈ t.workers.set i v', isLate u = true := by
      intro i v v' hi hlate hv' hmem hn
      exact ih ((mem_or_eq_of_mem_set hmem).resolve_right hv'.symm) (late_of_set hi hlate hn)
    -- one that leaves a worker behind the count, or in the callback
    have hbusy : ∀ i v v', t.workers[i]? = some v → isLate v' = false →
        ¬ ∀ u ∈ t.workers.set i v', isLate u = true := by
      intro i v v' hi hlate hn
      have hlt := lt_of_getElem? hi
      rw [hn v' (mem_set hlt v')] at hlate
      cases hlate
    cases step_cases hs with
    | insert hi _ _ | test hi _ | again hi _ | last hi _ | message hi | write hi =>
      exact fun _ => hbusy _ _ _ hi rfl
    | decrement hi hcount =>
      exact fun _ => ((hphase.gathering hi rfl nofun).decrement hi hcount).not_notified
        (length_set.trans hlen)
    | @notify w notifies hi =>
      obtain ⟨rfl, -⟩ := hphase.submitting hi
      intro hmem
      rcases mem_or_eq_of_mem_set hmem with hold | hv
      · obtain ⟨v, -, hv⟩ := mem_map.mp hold
        cases v <;> cases hv
      · cases hv
    | pass hi _ | wait hi _ => exact hstep _ _ _ hi rfl nofun
    | @sleep w hi => exact fun _ hn => hok.2 w rfl (late_of_set hi rfl hn)
    | @finish i v hi hv =>
      obtain ⟨_, _, _, heq⟩ := completeBlock_eq (setWorker i .finished t)
      rw [heq]
      obtain rfl := returned_of_finish hh hv
      exact hstep _ _ _ hi rfl nofun
    | @reply i m ret _ =>
      obtain ⟨_, _, _, heq⟩ := complete_eq ⟨.replica, ret⟩ _
      rw [heq]
      exact ih

theorem late_of_ended (hlen : s.workers.length = cfg.blocks.length) (hend : Ended s) :
    Notified s := by
  intro v hv
  rcases hend.worker hlen v hv with rfl | rfl <;> rfl

/-! ## The law -/

/--
**When a request is counted exactly.** Every run ends, and at its end: a WRITE in
tier mode is counted exactly if it has at most 255 blocks, went to no replica or
was submitted as one segment, and no worker slept through the notification. Any
other request is counted exactly if `pending_requests` came to zero `replicas + 1`
times, that is, for fewer than `2 ^ 32` blocks, if there are no replicas.

It is one segment if the buffers of neighbouring blocks touch, where buffers that
touch belong to neighbours. Nobody sleeps in the end if nobody goes to sleep after
`notify_all`, and whoever does sleeps for good.
-/
theorem countedExactly_iff (h : Reachable step StoreWorks (start cfg) s) :
    (Ended s → (CountedExactly s ↔
      if cfg.handsOver then
        cfg.blocks.length ≤ 255 ∧ (cfg.replicas = 0 ∨ s.chain.length = 1)
          ∧ Worker.asleep ∉ s.workers
      else zeros cfg.blocks.length = cfg.replicas + 1))
    ∧ (cfg.handsOver = true → Ended s → BuffersFollow cfg.blockSize (callsOf cfg) →
        (s.chain.length = 1 ↔ BuffersTouch cfg))
    ∧ (cfg.handsOver = true → cfg.blocks.length ≤ 255 → Ended s →
        Reachable step SleepsInTime (start cfg) s → Worker.asleep ∉ s.workers)
    ∧ (∀ w s₁ s₂, Notified s → s.step (.sleep w) = some s₁ →
        Reachable step StoreWorks s₁ s₂ → Worker.asleep ∈ s₂.workers)
    ∧ ∀ a s', s.step a = some s' → work s' < work s := by
  refine ⟨fun hend => ?_, fun hh hend => length_chain_eq_one_iff hh h hend,
    fun hh hk hend hr hmem => asleep_inTime hh hk hr hmem (late_of_ended (length_workers h) hend),
    fun w s₁ s₂ hn hs hr => ?_, fun a s' hs => work_lt h (step_cases hs)⟩
  case refine_2 =>
    obtain ⟨hn', hw⟩ := sleep_late hn hs
    exact mem_of_getElem? (asleep_reachable hn' hw hr).2
  have hlen := length_workers h
  rw [countedExactly_of_ended h hend, done_eq_iff hlen]
  cases hh : cfg.handsOver with
  | true =>
    rw [if_pos rfl]
    constructor
    · rintro ⟨hdone, hnum⟩
      -- the core calls once, so the replicas' answers have to be the other calls
      have hk := blocks_le_of_done hh h hdone
      refine ⟨hk, ?_, fun hasleep => absurd (hdone _ hasleep) (by simp)⟩
      have hone := zeros_eq_one (length_blocks_pos cfg) hk
      rw [sent_of_done hh hk h hdone, hone] at hnum
      have hmul : cfg.replicas * s.chain.length = cfg.replicas * 1 := by omega
      rcases Nat.eq_zero_or_pos cfg.replicas with hzero | hpos
      · exact Or.inl hzero
      · exact Or.inr (Nat.eq_of_mul_eq_mul_left hpos hmul)
    · rintro ⟨hk, hseg, hasleep⟩
      have hdone : ∀ v ∈ s.workers, v = .finished := by
        intro v hv
        rcases hend.worker hlen v hv with hfin | rfl
        · exact hfin
        · exact absurd hv hasleep
      refine ⟨hdone, ?_⟩
      have hone := zeros_eq_one (length_blocks_pos cfg) hk
      rw [sent_of_done hh hk h hdone, hone]
      rcases hseg with hzero | hseg
      · rw [hzero, Nat.zero_mul]
      · rw [hseg, Nat.mul_one]
  | false =>
    rw [if_neg (by simp)]
    have hunb := unbatched_reachable hh h
    rw [hunb.sent, length_nil, Nat.zero_add]
    -- nobody sleeps, so all workers are through
    refine and_iff_right ?_
    intro v hv
    rcases hend.worker hlen v hv with hfin | rfl
    · exact hfin
    · exact absurd (hunb.workers _ hv) (by simp)

/-- A WRITE of one block with one replica. -/
theorem one_block_counted :
    ∃ s : ReplicatedRequest (smallConfig 1 .write 2 Nat.two_pos fun _ => 100),
      Ended s ∧ s.workers = [.finished] ∧ CountedExactly s := by
  have hrun : (run step StoreWorks
      (start (smallConfig 1 .write 2 Nat.two_pos fun _ => 100))
      [.insert 0, .test 0, .decrement 0, .message 0, .write 0 2, .notify 0, .evaluate 0, .reply 0 0,
        .finish 0]).map
      (fun s => decide (s.workers = [.finished] ∧ s.inFlight = [] ∧ s.chain.length = 1))
        = some true := by decide +kernel
  obtain ⟨s, hs, hworkers, hflight, hchain⟩ := Reachable.of_run_decide hrun
  have hend : Ended s := ended_of_rest (by rw [hworkers]; simp) hflight
  refine ⟨s, hend, hworkers, ((countedExactly_iff hs).1 hend).mpr ?_⟩
  exact ⟨by decide, Or.inr hchain, by rw [hworkers]; decide⟩

/--
A READ with a replica is never completed. A WRITE of two segments is completed when
the replica has answered, and its completion is called once more after that. A
worker that goes to sleep after `notify_all` never gets back.
-/
theorem miscounted_requests :
    (∃ s : ReplicatedRequest (smallConfig 1 .read 2 Nat.two_pos fun _ => 100),
      Reachable step StoreWorks (start _) s ∧ Ended s ∧ s.workers = [.finished]
        ∧ s.client = [] ∧ ¬ CountedExactly s)
    ∧ (∃ s : ReplicatedRequest (smallConfig 1 .write 4 (Nat.succ_pos 3) fun b => 100 + 1000 * b),
      Reachable step StoreWorks (start _) s ∧ Ended s ∧ s.client = [⟨0, false⟩]
        ∧ s.calls = [⟨.replica, 0⟩, ⟨.replica, 0⟩, ⟨.core, 0⟩] ∧ ¬ CountedExactly s)
    ∧ ∃ s : ReplicatedRequest (smallConfig 0 .write 4 (Nat.succ_pos 3) fun b => 100 + 2 * b),
      Reachable step StoreWorks (start _) s ∧ Ended s ∧ s.workers = [.asleep, .finished]
        ∧ s.client = [] ∧ ¬ CountedExactly s := by
  refine ⟨?_, ?_, ?_⟩
  · have hrun : (run step StoreWorks
        (start (smallConfig 1 .read 2 Nat.two_pos fun _ => 100)) [.finish 0]).map
        (fun s => decide (s.workers = [.finished] ∧ s.inFlight = [] ∧ s.client = []))
          = some true := by decide +kernel
    obtain ⟨s, hs, hworkers, hflight, hclient⟩ := Reachable.of_run_decide hrun
    exact ⟨s, hs, ended_of_rest (by rw [hworkers]; simp) hflight, hworkers, hclient,
      not_countedExactly (by rw [hclient]; simp)⟩
  · have hrun : (run step StoreWorks
        (start (smallConfig 1 .write 4 (Nat.succ_pos 3) fun b => 100 + 1000 * b))
        [.insert 0, .insert 1, .test 0, .test 1, .decrement 0, .decrement 1, .message 1, .reply 0 0,
          .write 1 2, .message 1, .reply 0 0, .write 1 2, .notify 1, .evaluate 0, .evaluate 1,
          .finish 0, .finish 1]).map
        (fun s => decide (s.workers = [.finished, .finished] ∧ s.inFlight = []
          ∧ s.client = [⟨0, false⟩]
          ∧ s.calls = [⟨.replica, 0⟩, ⟨.replica, 0⟩, ⟨.core, 0⟩])) = some true := by decide +kernel
    obtain ⟨s, hs, hworkers, hflight, hclient, hcalls⟩ := Reachable.of_run_decide hrun
    exact ⟨s, hs, ended_of_rest (by rw [hworkers]; simp) hflight, hclient, hcalls,
      not_countedExactly (by rw [hclient]; simp)⟩
  · have hrun : (run step StoreWorks
        (start (smallConfig 0 .write 4 (Nat.succ_pos 3) fun b => 100 + 2 * b))
        [.insert 0, .insert 1, .test 0, .test 1, .decrement 0, .evaluate 0, .decrement 1,
          .write 1 4, .notify 1, .sleep 0, .evaluate 1, .finish 1]).map
        (fun s => decide (s.workers = [.asleep, .finished] ∧ s.inFlight = [] ∧ s.client = []))
          = some true := by decide +kernel
    obtain ⟨s, hs, hworkers, hflight, hclient⟩ := Reachable.of_run_decide hrun
    exact ⟨s, hs, ended_of_rest (by rw [hworkers]; simp) hflight, hworkers, hclient,
      not_countedExactly (by rw [hclient]; simp)⟩

end HDCS.Proof
