import HDCS.Core.ReplicatedRequest
import HDCS.Lib.Machine

/-!
# What the client is told

The completion that wraps the client's forwards one status: that of the call that
brings its count to zero, the last of the `replica_size + 1` calls it waits for.
The call of the core is among them and is always `0`, because
`ExecuteDataStoreRequest` completes with `0` whatever `submit_request` returned.
-/

namespace HDCS.Proof

open Lib ReplicatedRequest Lib.Machine List

variable {cfg : ReplicatedConfig} {s s' : ReplicatedRequest cfg}

/-- Steps of any kind, with whatever the stores and the replicas return. -/
abbrev AnyOutcome (_ : ReplicatedRequest cfg) (_ : Act) : Prop := True

/-- The calls whose status goes to the client. -/
def deciding (s : ReplicatedRequest cfg) : List Call :=
  if cfg.replicas = 0 then s.calls else s.calls[cfg.replicas]?.toList

structure Forwarded (s : ReplicatedRequest cfg) : Prop where
  status : s.status = 0
  core : ∀ c ∈ s.calls, c.caller = .core → c.status = 0
  client : s.client.map Report.status = (deciding s).map Call.status
  counting : cfg.replicas ≠ 0 → s.calls.length ≤ cfg.replicas →
    s.freed = false ∧ s.compCount = cfg.replicas + 1 - s.calls.length
  gone : cfg.replicas ≠ 0 → cfg.replicas < s.calls.length → s.freed = true

theorem Forwarded.frame (h : Forwarded s) (hstatus : s'.status = s.status)
    (hcalls : s'.calls = s.calls) (hclient : s'.client = s.client)
    (hcount : s'.compCount = s.compCount) (hfreed : s'.freed = s.freed) : Forwarded s' := by
  have hdec : deciding s' = deciding s := by
    unfold deciding
    rw [hcalls]
  constructor
  · rw [hstatus, h.status]
  · rw [hcalls]
    exact h.core
  · rw [hclient, hdec, h.client]
  · rw [hcalls, hcount, hfreed]
    exact h.counting
  · rw [hcalls, hfreed]
    exact h.gone

/-- **A call of `complete`.** -/
theorem Forwarded.complete {c : Call} (h : Forwarded s) (hc : c.caller = .core → c.status = 0) :
    Forwarded (s.complete c) := by
  have hcore : ∀ x ∈ s.calls ++ [c], x.caller = .core → x.status = 0 := by
    intro x hx
    rcases mem_append.mp hx with hx | hx
    · exact h.core x hx
    · rw [mem_singleton.mp hx]
      exact hc
  have hclient := h.client
  unfold deciding at hclient
  unfold ReplicatedRequest.complete
  dsimp only
  by_cases hr : cfg.replicas = 0
  · rw [if_pos hr] at hclient ⊢
    refine ⟨h.status, hcore, ?_, fun hne => absurd hr hne, fun hne => absurd hr hne⟩
    simp only [deciding, if_pos hr, map_append, hclient, map_singleton]
  · rw [if_neg hr] at hclient ⊢
    rcases Nat.lt_trichotomy s.calls.length cfg.replicas with hlt | heq | hgt
    · -- some calls are still missing
      obtain ⟨hfreed, hcount⟩ := h.counting hr (Nat.le_of_lt hlt)
      have hx : AioCompletion.complete s.compCount = (s.compCount - 1, false) := by
        rw [AioCompletion.complete_of_pos (by omega), decide_eq_false (by omega)]
      simp only [hfreed, Bool.false_eq_true, if_false, hx]
      refine ⟨h.status, hcore, ?_, ?_, ?_⟩
      · rw [hclient]
        simp only [deciding, if_neg hr]
        rw [getElem?_eq_none (by omega), getElem?_eq_none (by simp; omega)]
      · intro _ _
        refine ⟨rfl, ?_⟩
        simp only [length_append, length_singleton, hcount]
        omega
      · intro _ hlen
        rw [length_append, length_singleton] at hlen
        omega
    · -- this is the one that decides
      obtain ⟨hfreed, hcount⟩ := h.counting hr (Nat.le_of_eq heq)
      have hx : AioCompletion.complete s.compCount = (0, true) := by
        have hone : s.compCount = 1 := by
          rw [hcount, heq]
          omega
        rw [hone]
        rfl
      simp only [hfreed, Bool.false_eq_true, if_false, hx, if_true]
      refine ⟨h.status, hcore, ?_, ?_, fun _ _ => rfl⟩
      · rw [map_append, hclient]
        simp only [deciding, if_neg hr]
        rw [getElem?_eq_none (by omega), ← heq, getElem?_concat_length]
        rfl
      · intro _ hlen
        rw [length_append, length_singleton] at hlen
        omega
    · -- the completion is gone
      simp only [h.gone hr hgt, if_true]
      refine ⟨h.status, hcore, ?_, ?_, fun _ _ => rfl⟩
      · rw [hclient]
        simp only [deciding, if_neg hr]
        rw [getElem?_append_left hgt]
      · intro _ hlen
        rw [length_append, length_singleton] at hlen
        omega

theorem Forwarded.mem_client {c : Call} {x : Report} (h : Forwarded s)
    (hx : x ∈ (s.complete c).client) :
    x ∈ s.client ∨ x = ⟨c.status, s.isComplete⟩ ∧ cfg.replicas ≤ s.calls.length := by
  unfold ReplicatedRequest.complete at hx
  dsimp only at hx
  split at hx
  · rename_i hr
    rcases mem_append.mp hx with hx | hx
    · exact Or.inl hx
    · exact Or.inr ⟨mem_singleton.mp hx, by omega⟩
  · rename_i hr
    split at hx
    · exact Or.inl hx
    · dsimp only at hx
      split at hx
      · rename_i hcallback
        rcases mem_append.mp hx with hx | hx
        · exact Or.inl hx
        · refine Or.inr ⟨mem_singleton.mp hx, ?_⟩
          by_contra hlt
          obtain ⟨_, hcount⟩ := h.counting hr (by omega)
          rw [AioCompletion.complete_of_pos (by omega)] at hcallback
          have hone := of_decide_eq_true hcallback
          omega
      · exact Or.inl hx

theorem Forwarded.completeBlock (h : Forwarded s) : Forwarded s.completeBlock := by
  have hquiet : Forwarded { s with
      pending := (s.pending + (2 ^ 32 - 1)) % 2 ^ 32, status := s.status + 0 } :=
    h.frame (Int.add_zero _) rfl rfl rfl rfl
  unfold ReplicatedRequest.completeBlock
  dsimp only
  split
  · exact hquiet.complete fun _ => hquiet.status
  · exact hquiet

/-- **What the client has been told, in every run.** -/
theorem forwarded_reachable (h : Reachable step AnyOutcome (start cfg) s) :
    Forwarded s := by
  refine Reachable.invariant ?_ ?_ h
  · refine ⟨rfl, fun _ hc => absurd hc (by simp [start]), ?_, ?_, ?_⟩
    · unfold deciding
      split <;> rfl
    · exact fun _ _ => ⟨rfl, by simp [start]⟩
    · exact fun _ hlen => absurd hlen (by simp [start])
  · intro s a s' hs _ hstep
    cases step_cases hstep with
    | @finish w _ _ =>
      have hset : Forwarded (s.setWorker w .finished) := hs.frame rfl rfl rfl rfl rfl
      exact hset.completeBlock
    | @reply i m ret _ =>
      have hset : Forwarded ({ s with
          inFlight := s.inFlight.eraseIdx i } : ReplicatedRequest cfg) :=
        hs.frame rfl rfl rfl rfl rfl
      exact hset.complete (by simp)
    | _ => exact hs.frame rfl rfl rfl rfl rfl

/-! ## Reports of success -/

/-- Every local write and every reply so far was a success. -/
def AllWritten (s : ReplicatedRequest cfg) : Prop :=
  (∀ x ∈ s.writes, 0 ≤ x.2) ∧ ∀ c ∈ s.calls, c.caller = .replica → 0 ≤ c.status

instance (s : ReplicatedRequest cfg) : Decidable (AllWritten s) :=
  inferInstanceAs (Decidable (_ ∧ _))

/-- The client is told of a success only if every copy was written. -/
def HonestReport (s : ReplicatedRequest cfg) : Prop :=
  ∀ x ∈ s.client, 0 ≤ x.status → AllWritten s

instance (s : ReplicatedRequest cfg) : Decidable (HonestReport s) :=
  inferInstanceAs (Decidable (∀ x ∈ s.client, _))

/--
**When a report can be trusted.** Where something failed, the client does not hear
of a success only as long as it has heard nothing, or if the call that decided was
the reply of a replica that failed.
-/
theorem honestReport_iff (h : Reachable step AnyOutcome (start cfg) s) :
    HonestReport s
      ↔ AllWritten s ∨ ∀ c ∈ deciding s, c.caller = .replica ∧ c.status < 0 := by
  have hfwd := forwarded_reachable h
  constructor
  · intro hhonest
    by_cases hall : AllWritten s
    · exact Or.inl hall
    · refine Or.inr fun c hc => ?_
      have hmem : c.status ∈ s.client.map Report.status := by
        rw [hfwd.client]
        exact mem_map_of_mem hc
      obtain ⟨x, hx, hxc⟩ := mem_map.mp hmem
      have hneg : c.status < 0 := by
        by_contra hpos
        exact hall (hhonest x hx (by omega))
      refine ⟨?_, hneg⟩
      -- the core never reports a failure
      cases hcaller : c.caller with
      | replica => rfl
      | core =>
        have hmem' : c ∈ s.calls := by
          unfold deciding at hc
          split at hc
          · exact hc
          · exact mem_of_getElem? (Option.mem_toList.mp hc)
        have hzero := hfwd.core c hmem' hcaller
        omega
  · rintro (hall | hdec) x hx hpos
    · exact hall
    · have hmem : x.status ∈ (deciding s).map Call.status := by
        rw [← hfwd.client]
        exact mem_map_of_mem hx
      obtain ⟨c, hc, hcx⟩ := mem_map.mp hmem
      have hneg := (hdec c hc).2
      omega

/-- A request that starts at offset 0 in a core with blocks of two bytes. -/
abbrev smallConfig (replicas : Nat) (ioType : IoType) (length : Nat) (hpos : 0 < length)
    (buffer : Nat → Nat) : ReplicatedConfig where
  replicas := replicas
  blockSize := 2
  blockSize_pos := Nat.two_pos
  tier := true
  request := ⟨ioType, fun _ => 0, 0, length⟩
  length_pos := hpos
  buffer := buffer

/-- A failed reply that comes last reaches the client. -/
theorem last_reply_reported :
    ∃ s : ReplicatedRequest (smallConfig 1 .write 2 Nat.two_pos fun _ => 100),
      s.client.map Report.status = [-5] ∧ HonestReport s := by
  have hrun : (run step AnyOutcome
      (start (smallConfig 1 .write 2 Nat.two_pos fun _ => 100))
      [.insert 0, .test 0, .decrement 0, .message 0, .write 0 2, .notify 0, .evaluate 0, .finish 0,
        .reply 0 (-5)]).map
      (fun s => decide (s.client.map Report.status = [-5]
        ∧ ∀ c ∈ deciding s, c.caller = .replica ∧ c.status < 0)) = some true := by decide +kernel
  obtain ⟨s, hs, hclient, hdec⟩ := Reachable.of_run_decide hrun
  exact ⟨s, hclient, (honestReport_iff hs).mpr (Or.inr hdec)⟩

/--
A local write fails and the client is told `0`; a replica fails, the core completes
after it, and the client is told `0`.
-/
theorem failures_reported_as_success :
    (∃ s : ReplicatedRequest (smallConfig 0 .write 2 Nat.two_pos fun _ => 100),
      Reachable step AnyOutcome (start _) s
        ∧ s.writes.map Prod.snd = [-5] ∧ s.client.map Report.status = [0] ∧ ¬ HonestReport s)
    ∧ ∃ s : ReplicatedRequest (smallConfig 1 .write 2 Nat.two_pos fun _ => 100),
      Reachable step AnyOutcome (start _) s
        ∧ s.calls = [⟨.replica, -5⟩, ⟨.core, 0⟩] ∧ s.client.map Report.status = [0]
        ∧ ¬ HonestReport s := by
  constructor
  · have hrun : (run step AnyOutcome
        (start (smallConfig 0 .write 2 Nat.two_pos fun _ => 100))
        [.insert 0, .test 0, .decrement 0, .write 0 (-5), .notify 0, .evaluate 0, .finish 0]).map
        (fun s => decide (s.writes.map Prod.snd = [-5] ∧ s.client.map Report.status = [0]
          ∧ ¬ HonestReport s)) = some true := by decide +kernel
    exact Reachable.of_run_decide hrun
  · have hrun : (run step AnyOutcome
        (start (smallConfig 1 .write 2 Nat.two_pos fun _ => 100))
        [.insert 0, .test 0, .decrement 0, .message 0, .write 0 2, .reply 0 (-5), .notify 0,
          .evaluate 0, .finish 0]).map
        (fun s => decide (s.calls = [⟨.replica, -5⟩, ⟨.core, 0⟩]
          ∧ s.client.map Report.status = [0] ∧ ¬ HonestReport s)) = some true := by decide +kernel
    exact Reachable.of_run_decide hrun

end HDCS.Proof
