import HDCS.Core.ReplicatedRequest

/-!
# The op threads

`tq.h`, as `process_request` and `map_block` use it. The chain of every block of a request that
comes to an idle volume is a task of `hdcs_op_threads`. The tasks go through one queue, a thread
that is free takes the first of them, and has it until the chain is at its end; a chain that waits
in `wait_for_complete` keeps its thread.

`q_lock` is held where the queue is changed and where a thread looks at it, so a free thread is not
left asleep with a task in the queue. The destructor is left out, and so is waking up without a
notification: a thread looks at the queue, and a chain at its count, before it goes on.
-/

namespace HDCS

/-- A request whose chains are tasks. -/
structure PooledRequest (cfg : ReplicatedConfig) where
  request : ReplicatedRequest cfg
  /-- The chains that `map_block` has not been called for. -/
  unmapped : List Nat
  /-- `job_queue`. -/
  jobQueue : List Nat
  /-- The threads without a task. -/
  free : Nat

namespace PooledRequest

variable {cfg : ReplicatedConfig}

/-- After `create_block_requests`, with so many threads. -/
def start (cfg : ReplicatedConfig) (threads : Nat) : PooledRequest cfg :=
  ⟨.start cfg, List.range cfg.blocks.length, [], threads⟩

inductive Act where
  /-- `add_task`, for the next chain. -/
  | addTask
  /-- A free thread takes a task. -/
  | take
  /-- A chain goes on, or a replica answers. -/
  | run (a : ReplicatedRequest.Act)

def chainOf : ReplicatedRequest.Act → Option Nat
  | .insert w | .test w | .decrement w | .message w | .write w _ | .notify w | .evaluate w
  | .sleep w | .finish w => some w
  | .reply _ _ => none

def isFinish : ReplicatedRequest.Act → Bool
  | .finish _ => true
  | _ => false

def Taken (s : PooledRequest cfg) (w : Nat) : Prop := w ∉ s.unmapped ∧ w ∉ s.jobQueue

instance (s : PooledRequest cfg) (w : Nat) : Decidable (s.Taken w) :=
  inferInstanceAs (Decidable (_ ∧ _))

def step (s : PooledRequest cfg) : Act → Option (PooledRequest cfg)
  | .addTask =>
    match s.unmapped with
    | w :: rest => some { s with unmapped := rest, jobQueue := s.jobQueue ++ [w] }
    | [] => none
  | .take =>
    match s.free, s.jobQueue with
    | free + 1, _ :: rest => some { s with free := free, jobQueue := rest }
    | _, _ => none
  | .run a =>
    if ∀ w ∈ chainOf a, s.Taken w then
      (s.request.step a).map fun r =>
        { s with request := r, free := if isFinish a then s.free + 1 else s.free }
    else none

inductive Stepped (s : PooledRequest cfg) : Act → PooledRequest cfg → Prop where
  | addTask {w : Nat} {rest : List Nat} : s.unmapped = w :: rest →
      Stepped s .addTask { s with unmapped := rest, jobQueue := s.jobQueue ++ [w] }
  | take {w free : Nat} {rest : List Nat} : s.free = free + 1 → s.jobQueue = w :: rest →
      Stepped s .take { s with free := free, jobQueue := rest }
  | run {a : ReplicatedRequest.Act} {r : ReplicatedRequest cfg} : (∀ w ∈ chainOf a, s.Taken w) →
      ReplicatedRequest.Stepped s.request a r →
      Stepped s (.run a) { s with request := r, free := if isFinish a then s.free + 1 else s.free }

theorem step_cases {s s' : PooledRequest cfg} {a : Act} (h : s.step a = some s') :
    Stepped s a s' := by
  cases a with
  | addTask =>
    rw [step] at h
    split at h
    · cases h
      exact .addTask (by assumption)
    · cases h
  | take =>
    rw [step] at h
    split at h
    · cases h
      exact .take (by assumption) (by assumption)
    · cases h
  | run a =>
    rw [step] at h
    split at h
    · rename_i htaken
      obtain ⟨r, hr, rfl⟩ := Option.map_eq_some_iff.mp h
      exact .run htaken (ReplicatedRequest.step_cases hr)
    · cases h

theorem Stepped.step_eq {s s' : PooledRequest cfg} {a : Act} (h : Stepped s a s') :
    s.step a = some s' := by
  cases h with
  | addTask hunmapped => simp only [step, hunmapped]
  | take hfree hqueue => simp only [step, hfree, hqueue]
  | run htaken hr => simp only [step, if_pos htaken, hr.step_eq, Option.map_some]

end PooledRequest

end HDCS
