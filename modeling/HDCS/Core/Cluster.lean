import HDCS.Core.DataStoreRequest
import HDCS.Core.TierPolicy

/-!
# A master and its replicas

`submit_request` on the master sends every segment of a batch to the replicas, as
an HDCS_WRITE message, and then writes it to the store. Any number of batches may be
at that at the same time, statement by statement; which WRITE requests they come
from, what is in their chains and in their buffers is left open. A chain is made of
whole blocks, since `prepare_request` takes no other.

A `Connection` has sixteen sessions and takes them in turn; what is sent on one
session arrives in order. A replica enqueues a message when it arrives
(`HDCSController::handle_request`, `HDCSCore::aio_write`) and takes the requests off
its queue in that order (`HDCSCore::process`). The request of a message has a batch
of its own. Its blocks get a chain each, and the chains of a block run one after the
other. A chain hands its block to the batch and waits there until the count of the
batch is zero. The one that brought it to zero writes first; the others do not wait
for that.

The blocks of a message are one behind the other in its buffer, so that the batch is
one segment, and the write is one. A replica has no replicas of its own. What is left of
a chain after `prepare_request` does not touch the data of the store.
-/

namespace HDCS

open Lib Function

/-- `Connection`: what was sent and has not arrived, in that order, with the sessions. -/
structure Connection where
  onTheWay : List (Nat × Request)
  sessionIndex : Nat

namespace Connection

/-- After `connect_to_replica`, which has sent HDCS_CONNECT on the first session. -/
def start : Connection := ⟨[], 1⟩

def aioCommunicate (m : Request) (c : Connection) : Connection where
  onTheWay := c.onTheWay ++ [(c.sessionIndex, m)]
  sessionIndex := if c.sessionIndex + 1 = 16 then 0 else c.sessionIndex + 1

end Connection

/-- The blocks of a request. -/
def blockIds (cfg : TierConfig) (r : Request) : List Nat :=
  (createBlockRequests cfg.blockSize cfg.blockSize_pos 0 r).map BlockRequest.block

structure Batch where
  request : Request
  /-- `shared_count`. -/
  sharedCount : Int
  /-- The blocks that have been handed in. -/
  prepared : List Nat
  /-- Those whose chain runs the callback. -/
  submitting : List Nat
  /-- `submit_request` has written. -/
  written : Bool

def Batch.new (cfg : TierConfig) (r : Request) : Batch :=
  ⟨r, armedCount cfg.blockSize r, [], [], false⟩

/-- `prepare_request`: the block is in the batch, and the count goes down. -/
def Batch.prepare (b : Nat) (y : Batch) : Batch :=
  { y with
    prepared := b :: y.prepared
    sharedCount := (AioCompletion.complete y.sharedCount).1
    submitting :=
      if (AioCompletion.complete y.sharedCount).2 then b :: y.submitting else y.submitting }

structure Replica where
  /-- `request_queue`. -/
  requestQueue : List Request
  /-- The batches of the requests that were taken off it, in order. -/
  batches : List Batch
  /-- The chains of a block, the first of which is running, by their batches. -/
  queue : Nat → List Nat
  /-- The data store. -/
  store : Bytes
  /-- What was written there, in order. -/
  written : List Request

namespace Replica

/-- What the core of a replica does next. -/
inductive Act where
  /-- `process_request` of the next request. -/
  | process
  /-- `prepare_request` of the running chain of a block, up to `wait_for_complete`. -/
  | prepare (b : Nat)
  /-- The callback of the batch, by the running chain of a block. -/
  | submit (b : Nat)
  /-- The running chain of a block returns from `wait_for_complete` and comes to its end. -/
  | pass (b : Nat)

def running (b : Nat) (x : Replica) : Option (Nat × Batch) :=
  (x.queue b).head?.bind fun i => x.batches[i]?.map (i, ·)

/-- `create_block_requests` and `map_block` for a request. -/
def process (cfg : TierConfig) (r : Request) (rs : List Request) (x : Replica) : Replica :=
  { x with
    requestQueue := rs
    batches := x.batches ++ [Batch.new cfg r]
    queue := fun b =>
      if b ∈ blockIds cfg r then x.queue b ++ [x.batches.length] else x.queue b }

/-- `submit_request`. -/
def submit (b i : Nat) (y : Batch) (x : Replica) : Replica :=
  { x with
    batches := x.batches.set i { y with submitting := y.submitting.erase b, written := true }
    store := memcpy x.store y.request.offset y.request.data 0 y.request.length
    written := x.written ++ [y.request] }

def step (cfg : TierConfig) (x : Replica) : Act → Option Replica
  | .process =>
    match x.requestQueue with
    | r :: rs => some (x.process cfg r rs)
    | [] => none
  | .prepare b =>
    (x.running b).bind fun y =>
      if b ∈ y.2.prepared then none
      else some { x with batches := x.batches.set y.1 (Batch.prepare b y.2) }
  | .submit b =>
    (x.running b).bind fun y =>
      if b ∈ y.2.submitting then some (x.submit b y.1 y.2) else none
  | .pass b =>
    (x.running b).bind fun y =>
      if b ∈ y.2.prepared ∧ b ∉ y.2.submitting ∧ y.2.sharedCount = 0 then
        some { x with queue := update x.queue b (x.queue b).tail }
      else none

end Replica

structure Submission where
  /-- What it has not written yet. -/
  segments : SegmentChain
  /-- How many replicas were sent the first of them. -/
  told : Nat
  /-- What the buffers hold. -/
  memory : Bytes

/-- The master and its replicas. -/
structure Cluster where
  /-- The data store of the master. -/
  store : Bytes
  /-- The segments that were written there, in order, as the replicas get them. -/
  written : List Request
  submissions : List Submission
  connections : Nat → Connection
  replicas : Nat → Replica

namespace Cluster

/-- The data store of the master, and replicas with stores of their own. -/
def start (store : Bytes) (stores : Nat → Bytes) : Cluster where
  store := store
  written := []
  submissions := []
  connections := fun _ => Connection.start
  replicas := fun k => ⟨[], [], fun _ => [], stores k, []⟩

def message (cfg : TierConfig) (memory : Bytes) (x : Segment) : Request where
  ioType := .write
  data := fun i => memory (x.data + i)
  offset := x.block * cfg.blockSize
  length := x.length

inductive Act where
  /-- `submit_request` is called on the master. -/
  | submit (c : SegmentChain) (memory : Bytes)
  /-- One of them sends its next message or makes its next write. -/
  | advance (i : Nat)
  /-- The message at place `j` of those on the way to replica `k` arrives. -/
  | deliver (k j : Nat)
  /-- The core of replica `k` takes a step. -/
  | replica (k : Nat) (a : Replica.Act)

def WholeBlocks (cfg : TierConfig) (c : SegmentChain) : Prop :=
  ∀ x ∈ c, 0 < x.length ∧ x.length % cfg.blockSize = 0

instance (cfg : TierConfig) (c : SegmentChain) : Decidable (WholeBlocks cfg c) :=
  inferInstanceAs (Decidable (∀ x ∈ c, _))

def send (cfg : TierConfig) (i : Nat) (x : Segment) (u : Submission) (s : Cluster) : Cluster :=
  { s with
    submissions := s.submissions.set i { u with told := u.told + 1 }
    connections := update s.connections u.told
      ((s.connections u.told).aioCommunicate (message cfg u.memory x)) }

def write (cfg : TierConfig) (i : Nat) (x : Segment) (xs : SegmentChain) (u : Submission)
    (s : Cluster) : Cluster :=
  { s with
    store := memcpy s.store (x.block * cfg.blockSize) u.memory x.data x.length
    written := s.written ++ [message cfg u.memory x]
    submissions := s.submissions.set i { u with segments := xs, told := 0 } }

def arrive (k j : Nat) (m : Request) (s : Cluster) : Cluster :=
  { s with
    connections := update s.connections k
      { s.connections k with onTheWay := (s.connections k).onTheWay.eraseIdx j }
    replicas := update s.replicas k
      { s.replicas k with requestQueue := (s.replicas k).requestQueue ++ [m] } }

/-- What a step does, where it is possible, with `n` replicas. -/
def step (cfg : TierConfig) (n : Nat) (s : Cluster) : Act → Option Cluster
  | .submit c memory =>
    if WholeBlocks cfg c then some { s with submissions := s.submissions ++ [⟨c, 0, memory⟩] }
    else none
  | .advance i =>
    s.submissions[i]?.bind fun u =>
      match u.segments with
      | [] => none
      | x :: xs => some (if u.told < n then s.send cfg i x u else s.write cfg i x xs u)
  | .deliver k j =>
    (s.connections k).onTheWay[j]?.bind fun m =>
      -- the sessions do not wait for each other
      if ∀ m' ∈ (s.connections k).onTheWay.take j, m'.1 ≠ m.1 then some (s.arrive k j m.2)
      else none
  | .replica k a =>
    ((s.replicas k).step cfg a).map fun x =>
      { s with replicas := update s.replicas k x }

end Cluster

end HDCS
