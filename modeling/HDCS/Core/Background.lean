import Mathlib.Logic.Function.Basic
import HDCS.Lib.Counting
import HDCS.Lib.Machine

/-!
# The background work of the cache

Two threads make requests of their own in `CachePolicy`. The eviction loop (`process`)
enqueues a DEMOTE_CACHE for every block it wants out of the cache, and a timer thread runs the
callbacks of dirty timeouts, each of which enqueues a FLUSH. Both wait until fewer than half
of `process_threads_num` such requests are counted in `process_blocks_count`, enqueue one, and
count it. They wait on condition variables of their own, with mutexes nobody else takes;
a completion takes its request out of the count, and notifies the thread of its own kind if
what it then has is below the limit.

The timer thread runs the callbacks of one iteration under `map_lock`. The chain of a FLUSH
calls `cancel_event` in its `UpdateLRU`, which takes that lock, unless the block has left the
cache or its entry has no timeout. The chain of a DEMOTE_CACHE never does.
-/

namespace HDCS

open Lib

/-- The members of `CachePolicy` that are read here. -/
structure BackgroundConfig where
  /-- `process_threads_num`, an `int`. -/
  processThreadsNum : Nat
  two_le : 2 ≤ processThreadsNum
  lt : processThreadsNum < 2 ^ 31

/-- `process_threads_num / 2`. -/
def BackgroundConfig.half (cfg : BackgroundConfig) : Nat := cfg.processThreadsNum / 2

inductive BackgroundKind where
  | demote
  | flush
  deriving DecidableEq, Repr

/-- Where a thread is, with how many requests it still has to make. -/
inductive Producer where
  /-- Between two batches. The timer thread does not have `map_lock`. -/
  | idle
  /-- Before it looks at the count. -/
  | testing (left : Nat)
  /-- The count was too high; a notification does not reach the thread yet. -/
  | drowsy (left : Nat)
  /-- On its condition variable. -/
  | asleep (left : Nat)
  /-- Before `request_queue->enqueue`. -/
  | enqueuing (left : Nat)
  /-- Before `process_blocks_count++`. -/
  | counting (left : Nat)
  deriving DecidableEq, Repr

namespace Producer

/-- With so many requests to make. -/
def more : Nat → Producer
  | 0 => .idle
  | left + 1 => .testing (left + 1)

def wake : Producer → Producer
  | .asleep left => .testing left
  | p => p

end Producer

inductive BackgroundPhase where
  | queued
  /-- In `cancel_event`, before it has `map_lock`. -/
  | locking
  /-- Past that. -/
  | passed
  /-- Out of the count, before the notification. -/
  | notifying
  | completed
  deriving DecidableEq, Repr

/-- A request of one of the two threads. -/
structure BackgroundRequest where
  kind : BackgroundKind
  phase : BackgroundPhase
  deriving DecidableEq, Repr

/-- The two threads, their requests, and the counter. -/
structure Background (cfg : BackgroundConfig) where
  producers : BackgroundKind → Producer
  /-- In the order they were enqueued in. -/
  requests : List BackgroundRequest
  /-- `process_blocks_count`, a `uint64_t`. -/
  processBlocksCount : Nat

namespace Background

variable {cfg : BackgroundConfig}

def new (cfg : BackgroundConfig) : Background cfg := ⟨fun _ => .idle, [], 0⟩

inductive Act where
  /-- The eviction loop has a list of blocks, or an iteration of the timer has timeouts. -/
  | start (k : BackgroundKind) (left : Nat)
  /-- It looks at the count. -/
  | test (k : BackgroundKind)
  | sleep (k : BackgroundKind)
  /-- The wait ends without a notification. -/
  | wakeUp (k : BackgroundKind)
  | enqueue (k : BackgroundKind)
  | count (k : BackgroundKind)
  /-- The chain of a FLUSH comes to `cancel_event`. -/
  | cancel (i : Nat)
  /-- It has had `map_lock`. -/
  | cancelled (i : Nat)
  /-- A chain without `cancel_event`. -/
  | skip (i : Nat)
  /-- A completion, `--process_blocks_count`. -/
  | complete (i : Nat)
  | notify (i : Nat)
  deriving DecidableEq, Repr

/-- A thread goes on. -/
def setProducer (k : BackgroundKind) (p : Producer) (s : Background cfg) : Background cfg :=
  { s with producers := Function.update s.producers k p }

@[simp] theorem setProducer_self (k : BackgroundKind) (p : Producer) (s : Background cfg) :
    (s.setProducer k p).producers k = p :=
  Function.update_self ..

theorem setProducer_of_ne {k k' : BackgroundKind} (h : k' ≠ k) (p : Producer) (s : Background cfg) :
    (s.setProducer k p).producers k' = s.producers k' :=
  Function.update_of_ne h ..

def setRequest (i : Nat) (k : BackgroundKind) (p : BackgroundPhase) (s : Background cfg) :
    Background cfg :=
  { s with requests := s.requests.set i ⟨k, p⟩ }

def pushRequest (k : BackgroundKind) (s : Background cfg) : Background cfg :=
  { s with requests := s.requests ++ [⟨k, .queued⟩] }

def setCount (count : Nat) (s : Background cfg) : Background cfg :=
  { s with processBlocksCount := count }

def step (s : Background cfg) : Act → Option (Background cfg)
  | .start k left =>
    match s.producers k with
    | .idle => some (s.setProducer k (.more left))
    | _ => none
  | .test k =>
    match s.producers k with
    | .testing left =>
      some (s.setProducer k (if s.processBlocksCount < cfg.half then .enqueuing left
        else .drowsy left))
    | _ => none
  | .sleep k =>
    match s.producers k with
    | .drowsy left => some (s.setProducer k (.asleep left))
    | _ => none
  | .wakeUp k =>
    match s.producers k with
    | .asleep left => some (s.setProducer k (.testing left))
    | _ => none
  | .enqueue k =>
    match s.producers k with
    | .enqueuing left =>
      some ((s.pushRequest k).setProducer k (.counting left))
    | _ => none
  | .count k =>
    match s.producers k with
    | .counting left =>
      some ((s.setCount (incr64 s.processBlocksCount)).setProducer k (.more (left - 1)))
    | _ => none
  | .cancel i =>
    match s.requests[i]? with
    | some ⟨.flush, .queued⟩ => some (s.setRequest i .flush .locking)
    | _ => none
  | .cancelled i =>
    match s.requests[i]? with
    | some ⟨.flush, .locking⟩ =>
      -- the timer thread has the lock while it runs callbacks
      if s.producers .flush = .idle then some (s.setRequest i .flush .passed) else none
    | _ => none
  | .skip i =>
    match s.requests[i]? with
    | some ⟨k, .queued⟩ => some (s.setRequest i k .passed)
    | _ => none
  | .complete i =>
    match s.requests[i]? with
    | some ⟨k, .passed⟩ =>
      let count := decr64 s.processBlocksCount
      some ((s.setCount count).setRequest i k (if count < cfg.half then .notifying else .completed))
    | _ => none
  | .notify i =>
    match s.requests[i]? with
    -- only the thread of its own kind
    | some ⟨k, .notifying⟩ =>
      some ((s.setRequest i k .completed).setProducer k (s.producers k).wake)
    | _ => none

inductive Stepped (s : Background cfg) : Act → Background cfg → Prop where
  | start {k : BackgroundKind} {left : Nat} : s.producers k = .idle →
      Stepped s (.start k left) (s.setProducer k (.more left))
  | pass {k : BackgroundKind} {left : Nat} : s.producers k = .testing left →
      s.processBlocksCount < cfg.half →
      Stepped s (.test k) (s.setProducer k (.enqueuing left))
  | wait {k : BackgroundKind} {left : Nat} : s.producers k = .testing left →
      cfg.half ≤ s.processBlocksCount →
      Stepped s (.test k) (s.setProducer k (.drowsy left))
  | sleep {k : BackgroundKind} {left : Nat} : s.producers k = .drowsy left →
      Stepped s (.sleep k) (s.setProducer k (.asleep left))
  | wakeUp {k : BackgroundKind} {left : Nat} : s.producers k = .asleep left →
      Stepped s (.wakeUp k) (s.setProducer k (.testing left))
  | enqueue {k : BackgroundKind} {left : Nat} : s.producers k = .enqueuing left →
      Stepped s (.enqueue k) ((s.pushRequest k).setProducer k (.counting left))
  | count {k : BackgroundKind} {left count : Nat} : s.producers k = .counting left →
      count = incr64 s.processBlocksCount →
      Stepped s (.count k) ((s.setCount count).setProducer k (.more (left - 1)))
  | cancel {i : Nat} : s.requests[i]? = some ⟨.flush, .queued⟩ →
      Stepped s (.cancel i) (s.setRequest i .flush .locking)
  | cancelled {i : Nat} : s.requests[i]? = some ⟨.flush, .locking⟩ → s.producers .flush = .idle →
      Stepped s (.cancelled i) (s.setRequest i .flush .passed)
  | skip {i : Nat} {k : BackgroundKind} : s.requests[i]? = some ⟨k, .queued⟩ →
      Stepped s (.skip i) (s.setRequest i k .passed)
  | complete {i count : Nat} {k : BackgroundKind} : s.requests[i]? = some ⟨k, .passed⟩ →
      count = decr64 s.processBlocksCount →
      Stepped s (.complete i) ((s.setCount count).setRequest i k
        (if count < cfg.half then .notifying else .completed))
  | notify {i : Nat} {k : BackgroundKind} : s.requests[i]? = some ⟨k, .notifying⟩ →
      Stepped s (.notify i) ((s.setRequest i k .completed).setProducer k (s.producers k).wake)

theorem step_cases {s s' : Background cfg} {a : Act} (h : s.step a = some s') : Stepped s a s' := by
  cases a with
  | start k _ | sleep k | wakeUp k | enqueue k | cancel k | skip k | notify k =>
    rw [step] at h
    split at h
    · cases h
      constructor
      assumption
    · cases h
  | test k =>
    rw [step] at h
    split at h
    · rename_i left hk
      cases h
      split
      · exact .pass hk (by assumption)
      · exact .wait hk (by omega)
    · cases h
  | count k =>
    rw [step] at h
    split at h
    · cases h
      exact .count (by assumption) rfl
    · cases h
  | cancelled i =>
    rw [step] at h
    split at h
    · rename_i hi
      split at h
      · cases h
        exact .cancelled hi (by assumption)
      · cases h
    · cases h
  | complete i =>
    rw [step] at h
    split at h
    · cases h
      exact .complete (by assumption) rfl
    · cases h

theorem Stepped.step_eq {s s' : Background cfg} {a : Act} (h : Stepped s a s') :
    s.step a = some s' := by
  cases h with
  | start hk | sleep hk | wakeUp hk | enqueue hk => simp only [step, hk]
  | pass hk hlt => simp only [step, hk, if_pos hlt]
  | wait hk hge => simp only [step, hk, if_neg (Nat.not_lt_of_le hge)]
  | count hk hcount => simp only [step, hk, hcount]
  | cancel hi | skip hi | notify hi => simp only [step, hi]
  | cancelled hi hk => simp only [step, hi, if_pos hk]
  | complete hi hcount => simp only [step, hi, hcount]

end Background

end HDCS
