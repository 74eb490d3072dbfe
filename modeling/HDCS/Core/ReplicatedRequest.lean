import HDCS.Core.DataStoreRequest

/-!
# A request and everyone who has to complete it

`create_block_requests` counts for a request. Its block requests are counted in
`pending_requests`; where there are replicas, the completion of the client is
wrapped in one that is called once for each of them and once more for the request
itself; and the chains of a WRITE, in tier mode, meet in the batch
(`DataStoreRequest`), whose own completion waits for all of them.

The machine executes one request. Every block has a worker, and the workers, the
messages and the replies take their steps in any order. `complete` of the batch's
completion is taken apart as far as others can get between: the comparison with
`-1`, the decrement, the callback, `notify_all`. So is `wait_for_complete`, where
the count is looked at before the thread is put on the condition variable. Waking
up without a notification is left out: it takes a worker back to where it has not
looked at the count yet, and a worker can be there as late as it likes without it.

The callback reads `data_store_req_chain` when it starts. A request of at most 255
blocks has all of them in there by then.
-/

namespace HDCS

/-- A request and the core it comes to. -/
structure ReplicatedConfig where
  /-- `replica_size`, the size of `connection_v`. -/
  replicas : Nat
  blockSize : Nat
  blockSize_pos : 0 < blockSize
  /-- Whether the policy is the tier policy. -/
  tier : Bool
  request : Request
  length_pos : 0 < request.length
  /-- Where the buffer is that the chain of a block hands in. -/
  buffer : Nat → Nat

namespace ReplicatedConfig

variable (cfg : ReplicatedConfig)

/-- The blocks of the request, one for each block request. -/
def blocks : List Nat :=
  (createBlockRequests cfg.blockSize cfg.blockSize_pos 0 cfg.request).map BlockRequest.block

/-- The chains of the request contain an `ExecuteDataStoreRequest`. -/
def handsOver : Bool := cfg.tier && cfg.request.ioType == .write

end ReplicatedConfig

/-- Where the chain of a block is. -/
inductive Worker where
  /-- Before `prepare_request`. -/
  | preparing
  /-- The block is in the chain of the batch. -/
  | inserted
  /-- The count of the batch was not `-1`. -/
  | tested
  /-- In the callback of the batch; it is followed by `notify_all` unless the count was `-1`. -/
  | submitting (ops : List SubmitOp) (notifies : Bool)
  /-- In `wait_for_complete`, before it looks at the count. -/
  | waiting
  /-- The count was not zero; a notification does not reach the thread yet. -/
  | drowsy
  /-- On the condition variable. -/
  | asleep
  /-- Back from `prepare_request`. -/
  | returned
  /-- The block request has been completed. -/
  | finished
  deriving DecidableEq, Repr

def Worker.wake : Worker → Worker
  | .asleep => .waiting
  | v => v

/-- Who calls `complete` of the request's completion. -/
inductive Caller where
  | core
  | replica
  deriving DecidableEq, Repr

/-- A call of `complete`. -/
structure Call where
  caller : Caller
  status : Int
  deriving DecidableEq, Repr

/-- The client's completion being called. -/
structure Report where
  status : Int
  /-- By then all chains were through and all messages answered. -/
  complete : Bool
  deriving DecidableEq, Repr

/-- The request on its way. -/
structure ReplicatedRequest (cfg : ReplicatedConfig) where
  /-- One for each block request. -/
  workers : List Worker
  /-- `data_store_req_chain`. -/
  chain : SegmentChain
  /-- `shared_count` of the batch's completion. -/
  sharedCount : Int
  /-- The local writes, with what they returned. -/
  writes : List (Segment × Int)
  /-- The messages to the replicas. -/
  sent : List (Segment × Nat)
  /-- Those of them that have not been answered. -/
  inFlight : List (Segment × Nat)
  /-- `pending_requests`, a `uint32_t`. -/
  pending : Nat
  status : Int
  /-- `shared_count` of the completion that wraps the client's. -/
  compCount : Int
  /-- It has been deleted. -/
  freed : Bool
  /-- The calls of `complete` of the request's completion. -/
  calls : List Call
  client : List Report

namespace ReplicatedRequest

variable {cfg : ReplicatedConfig}

/-- After `create_block_requests`. -/
def start (cfg : ReplicatedConfig) : ReplicatedRequest cfg where
  workers := List.replicate cfg.blocks.length .preparing
  chain := []
  sharedCount := armedCount cfg.blockSize cfg.request
  writes := []
  sent := []
  inFlight := []
  pending := cfg.blocks.length % 2 ^ 32
  status := 0
  compCount := cfg.replicas + 1
  freed := false
  calls := []
  client := []

inductive Act where
  /-- `prepare_request` of a worker, up to the unlock. -/
  | insert (w : Nat)
  /-- `shared_count == -1`. -/
  | test (w : Nat)
  /-- `--shared_count == 0`. -/
  | decrement (w : Nat)
  /-- `submit_request` sends a message. -/
  | message (w : Nat)
  /-- `submit_request` writes a segment; the store returns `ret`. -/
  | write (w : Nat) (ret : Int)
  /-- The callback is through. -/
  | notify (w : Nat)
  /-- `shared_count == 0` in `wait_for_complete`. -/
  | evaluate (w : Nat)
  /-- The thread is put on the condition variable. -/
  | sleep (w : Nat)
  /-- The rest of the chain, and `Request::complete`. -/
  | finish (w : Nat)
  /-- A replica answers a message. -/
  | reply (i : Nat) (ret : Int)

def setWorker (w : Nat) (v : Worker) (s : ReplicatedRequest cfg) : ReplicatedRequest cfg :=
  { s with workers := s.workers.set w v }

def isComplete (s : ReplicatedRequest cfg) : Bool :=
  s.workers.all (· == .finished) && s.inFlight.isEmpty

/--
`complete` of the request's completion. Without replicas that is the client's own;
else it is the one that wraps it, and deletes itself after its callback.
-/
def complete (c : Call) (s : ReplicatedRequest cfg) : ReplicatedRequest cfg :=
  let calls := s.calls ++ [c]
  let client := s.client ++ [⟨c.status, s.isComplete⟩]
  if cfg.replicas = 0 then { s with calls := calls, client := client }
  -- a call of a completion that is gone does what it likes, and is only counted
  else if s.freed then { s with calls := calls }
  else
    let x := AioCompletion.complete s.compCount
    { s with
      calls := calls
      compCount := x.1
      freed := x.2
      client := if x.2 then client else s.client }

def completeBlock (s : ReplicatedRequest cfg) : ReplicatedRequest cfg :=
  let pending := (s.pending + (2 ^ 32 - 1)) % 2 ^ 32
  let s := { s with pending := pending, status := s.status + 0 }
  if pending = 0 then s.complete ⟨.core, s.status⟩ else s

theorem complete_eq (c : Call) (s : ReplicatedRequest cfg) : ∃ compCount freed client,
    s.complete c = { s with
      calls := s.calls ++ [c], compCount := compCount, freed := freed, client := client } := by
  unfold complete
  dsimp only
  split
  · exact ⟨_, _, _, rfl⟩
  · split
    · exact ⟨_, _, _, rfl⟩
    · exact ⟨_, _, _, rfl⟩

theorem completeBlock_eq (s : ReplicatedRequest cfg) : ∃ compCount freed client,
    s.completeBlock = { s with
      pending := (s.pending + (2 ^ 32 - 1)) % 2 ^ 32
      status := s.status + 0
      calls := s.calls ++ if (s.pending + (2 ^ 32 - 1)) % 2 ^ 32 = 0 then
        [⟨.core, s.status + 0⟩] else []
      compCount := compCount, freed := freed, client := client } := by
  unfold completeBlock
  dsimp only
  split
  · exact complete_eq _ _
  · rw [List.append_nil]
    exact ⟨_, _, _, rfl⟩

def step (s : ReplicatedRequest cfg) : Act → Option (ReplicatedRequest cfg)
  | .insert w =>
    match s.workers[w]?, cfg.blocks[w]? with
    -- `data_store_mutex` is held from the first look at the map to the last
    | some .preparing, some b =>
      if cfg.handsOver then
        some ({ s with
          chain := prepareRequest cfg.blockSize b (cfg.buffer b) s.chain }.setWorker w .inserted)
      else none
    | _, _ => none
  | .test w =>
    match s.workers[w]? with
    -- a count of -1 says that the callback is run on every call, and no one is notified
    | some .inserted =>
      some (s.setWorker w (if s.sharedCount = -1 then
        .submitting (submitRequest cfg.replicas s.chain) false else .tested))
    | _ => none
  | .decrement w =>
    match s.workers[w]? with
    | some .tested =>
      let x := HDCS.decrement s.sharedCount
      -- who brings the count to zero runs the callback, and the count is zero before that
      some ({ s with sharedCount := x.1 }.setWorker w (if x.2 then
        .submitting (submitRequest cfg.replicas s.chain) true else .waiting))
    | _ => none
  | .message w =>
    match s.workers[w]? with
    | some (.submitting (.message x replica :: ops) notifies) =>
      some ({ s with
        sent := s.sent ++ [(x, replica)]
        inFlight := s.inFlight ++ [(x, replica)] }.setWorker w (.submitting ops notifies))
    | _ => none
  | .write w ret =>
    match s.workers[w]? with
    | some (.submitting (.write x :: ops) notifies) =>
      -- a failed write ends the loop; what it returned is looked at by nobody
      some ({ s with writes := s.writes ++ [(x, ret)] }.setWorker w
        (.submitting (if ret < 0 then [] else ops) notifies))
    | _ => none
  | .notify w =>
    match s.workers[w]? with
    | some (.submitting [] notifies) =>
      -- who has not yet gone to sleep does not hear it
      let workers := if notifies then s.workers.map Worker.wake else s.workers
      some ({ s with workers := workers }.setWorker w .waiting)
    | _ => none
  | .evaluate w =>
    match s.workers[w]? with
    | some .waiting =>
      some (s.setWorker w (if s.sharedCount = 0 then .returned else .drowsy))
    | _ => none
  | .sleep w =>
    match s.workers[w]? with
    | some .drowsy => some (s.setWorker w .asleep)
    | _ => none
  | .finish w =>
    match s.workers[w]? with
    | some .returned => some (s.setWorker w .finished).completeBlock
    | some .preparing =>
      if cfg.handsOver then none else some (s.setWorker w .finished).completeBlock
    | _ => none
  | .reply i ret =>
    match s.inFlight[i]? with
    | some _ => some ({ s with inFlight := s.inFlight.eraseIdx i }.complete ⟨.replica, ret⟩)
    | none => none

inductive Stepped (s : ReplicatedRequest cfg) : Act → ReplicatedRequest cfg → Prop where
  | insert {w b : Nat} : s.workers[w]? = some .preparing → cfg.blocks[w]? = some b →
      cfg.handsOver = true →
      Stepped s (.insert w) ({ s with
        chain := prepareRequest cfg.blockSize b (cfg.buffer b) s.chain }.setWorker w .inserted)
  | test {w : Nat} : s.workers[w]? = some .inserted → s.sharedCount ≠ -1 →
      Stepped s (.test w) (s.setWorker w .tested)
  | again {w : Nat} : s.workers[w]? = some .inserted → s.sharedCount = -1 →
      Stepped s (.test w) (s.setWorker w (.submitting (submitRequest cfg.replicas s.chain) false))
  | decrement {w : Nat} : s.workers[w]? = some .tested → s.sharedCount ≠ 1 →
      Stepped s (.decrement w) ({ s with sharedCount := s.sharedCount - 1 }.setWorker w .waiting)
  | last {w : Nat} : s.workers[w]? = some .tested → s.sharedCount = 1 →
      Stepped s (.decrement w) ({ s with sharedCount := 0 }.setWorker w
        (.submitting (submitRequest cfg.replicas s.chain) true))
  | message {w replica : Nat} {x : Segment} {ops : List SubmitOp} {notifies : Bool} :
      s.workers[w]? = some (.submitting (.message x replica :: ops) notifies) →
      Stepped s (.message w) ({ s with
        sent := s.sent ++ [(x, replica)]
        inFlight := s.inFlight ++ [(x, replica)] }.setWorker w (.submitting ops notifies))
  | write {w : Nat} {x : Segment} {ops : List SubmitOp} {notifies : Bool} {ret : Int} :
      s.workers[w]? = some (.submitting (.write x :: ops) notifies) →
      Stepped s (.write w ret) ({ s with writes := s.writes ++ [(x, ret)] }.setWorker w
        (.submitting (if ret < 0 then [] else ops) notifies))
  | notify {w : Nat} {notifies : Bool} : s.workers[w]? = some (.submitting [] notifies) →
      Stepped s (.notify w) ({ s with
        workers := if notifies then s.workers.map Worker.wake else s.workers }.setWorker w .waiting)
  | pass {w : Nat} : s.workers[w]? = some .waiting → s.sharedCount = 0 →
      Stepped s (.evaluate w) (s.setWorker w .returned)
  | wait {w : Nat} : s.workers[w]? = some .waiting → s.sharedCount ≠ 0 →
      Stepped s (.evaluate w) (s.setWorker w .drowsy)
  | sleep {w : Nat} : s.workers[w]? = some .drowsy → Stepped s (.sleep w) (s.setWorker w .asleep)
  | finish {w : Nat} {v : Worker} : s.workers[w]? = some v →
      (v = .returned ∨ v = .preparing ∧ cfg.handsOver = false) →
      Stepped s (.finish w) (s.setWorker w .finished).completeBlock
  | reply {i : Nat} {m : Segment × Nat} {ret : Int} : s.inFlight[i]? = some m →
      Stepped s (.reply i ret)
        ({ s with inFlight := s.inFlight.eraseIdx i }.complete ⟨.replica, ret⟩)

theorem step_cases {s s' : ReplicatedRequest cfg} {a : Act} (h : s.step a = some s') :
    Stepped s a s' := by
  cases a with
  | insert w =>
    rw [step] at h
    split at h
    · rename_i hw hb
      split at h
      · rename_i hh
        cases h
        exact .insert hw hb hh
      · cases h
    · cases h
  | test w =>
    rw [step] at h
    split at h
    · rename_i hw
      cases h
      split
      · exact .again hw (by assumption)
      · exact .test hw (by assumption)
    · cases h
  | decrement w =>
    rw [step] at h
    split at h
    · rename_i hw
      cases h
      simp only [HDCS.decrement, decide_eq_true_eq]
      split
      · rename_i hc
        rw [hc]
        exact .last hw (by omega)
      · exact .decrement hw (by omega)
    · cases h
  | message w | write w _ | notify w | sleep w | reply w _ =>
    rw [step] at h
    split at h
    · cases h
      constructor
      assumption
    · cases h
  | evaluate w =>
    rw [step] at h
    split at h
    · rename_i hw
      cases h
      split
      · exact .pass hw (by assumption)
      · exact .wait hw (by assumption)
    · cases h
  | finish w =>
    rw [step] at h
    split at h
    · rename_i hw
      rw [← Option.some.inj h]
      exact .finish hw (Or.inl rfl)
    · rename_i hw
      split at h
      · cases h
      · rename_i hh
        rw [← Option.some.inj h]
        exact .finish hw (Or.inr ⟨rfl, by simpa using hh⟩)
    · cases h

theorem Stepped.step_eq {s s' : ReplicatedRequest cfg} {a : Act} (h : Stepped s a s') :
    s.step a = some s' := by
  cases h with
  | insert hw hb hh => simp only [step, hw, hb, hh, if_true]
  | test hw hc | wait hw hc => simp only [step, hw, if_neg hc]
  | again hw hc | pass hw hc => simp only [step, hw, if_pos hc]
  | decrement hw hc =>
    have hne : ¬ s.sharedCount - 1 = 0 := by omega
    simp only [step, hw, HDCS.decrement, decide_eq_true_eq, if_neg hne]
  | last hw hc => simp only [step, hw, HDCS.decrement, hc, Int.sub_self, decide_true, if_true]
  | message hw | write hw | notify hw | sleep hw => simp only [step, hw]
  | finish hw hv =>
    rcases hv with rfl | ⟨rfl, hh⟩
    · simp only [step, hw]
    · simp only [step, hw, hh, Bool.false_eq_true, if_false]
  | reply hm => simp only [step, hm]

end ReplicatedRequest

end HDCS
