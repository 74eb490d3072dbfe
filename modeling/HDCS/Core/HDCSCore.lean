import HDCS.Core.Serial

/-!
# The core

`HDCSCore.cpp`, with the hand-over between chains that `BlockOp.h` adds to it.
Requests are queued, taken off the queue one at a time, cut into block requests
and put on `block_request_list`; a scan of that list maps what it can and leaves
the rest parked. Mapped requests become chains of operations, and worker threads
send these one after the other.

A `BlockOp*` is the number of a chain and a position in it; the position after
the last operation is the chain's `BlockRequestComplete`. The operations of a
chain never change, and neither do the pointers between them: what the core
writes is the `block_op_next` of a `BlockRequestComplete`, when it appends a
chain to one that is still under way.

A step is what the code does in one go: a locked section, one round of the scan,
or one `send`. Whatever a thread has still to do is a `Task`, and any task can be
the next to run. Taking a request off `request_queue` is one step with taking
`block_request_list_lock`: one thread takes requests off, and nothing else looks
at the front of the queue.

`arrived`, `mapped`, `accepted`, `sent` and `notified` are records of the run;
no step reads them.
-/

namespace HDCS

open Lib Function

/-- A `BlockOp*`: position `index` of chain `chain`. -/
structure Ptr where
  chain : Nat
  index : Nat
  deriving DecidableEq, Repr

/-- What a worker thread has still to do. -/
inductive Task where
  /-- `p->send()`. -/
  | send (p : Ptr)
  /-- `BlockRequestComplete::complete` past its locked section, which computed `callNext`. -/
  | completed (p : Ptr) (callNext : Bool)
  deriving DecidableEq, Repr

structure Workers {n bs : Nat} (P : Policy n bs) where
  pol : P.State
  /-- The chains, as they were built. -/
  chains : Nat → Chain n bs
  /-- The buffers of the chains. -/
  bufs : Nat → Bufs
  nextChain : Nat
  blockOpNext : Ptr → Option Ptr
  /-- `block->in_process`. -/
  inProcess : Nat → Bool
  /-- `block->block_ops_end`. -/
  blockOpsEnd : Nat → Option Ptr
  tasks : List Task
  /-- What was passed to `map_block` for a block, in order. -/
  mapped : Nat → List (BlockRequest bs)
  /-- The chains `map_block` accepted for a block, in order. -/
  accepted : Nat → List Nat
  /-- The operations of a block that were sent and did not fail, in order. -/
  sent : Nat → List Ptr
  /-- The calls of `block_request->complete`, in order. -/
  notified : List (Completion bs)

namespace Workers

variable {n bs : Nat} {P : Policy n bs}

def start (pol : P.State) : Workers P where
  pol := pol
  chains := fun _ =>
    ⟨⟨.read, fun _ => 0, 0, 0, 0, 0, Nat.zero_le _⟩, [], ⟨fun _ => 0, fun _ => 0⟩, false, none⟩
  bufs := fun _ => ⟨fun _ => 0, fun _ => 0⟩
  nextChain := 0
  blockOpNext := fun _ => none
  inProcess := fun _ => false
  blockOpsEnd := fun _ => none
  tasks := []
  mapped := fun _ => []
  accepted := fun _ => []
  sent := fun _ => []
  notified := []

/-! ## Pointers -/

/-- The request a chain serves. -/
def reqOf (w : Workers P) (k : Nat) : BlockRequest bs := (w.chains k).req

/-- The block the chain of an operation works on. -/
def blockOf (w : Workers P) (p : Ptr) : Nat := (w.reqOf p.chain).block

def opAt (w : Workers P) (p : Ptr) : Option (BlockOp n) := (w.chains p.chain).ops[p.index]?

def completeOp (w : Workers P) (k : Nat) : Ptr := ⟨k, (w.chains k).ops.length⟩

def linkChain (k len : Nat) (next : Ptr → Option Ptr) : Ptr → Option Ptr := fun p =>
  if p.chain = k then (if p.index < len then some ⟨k, p.index + 1⟩ else none) else next p

def linkEnd : Option Ptr → Ptr → (Ptr → Option Ptr) → Ptr → Option Ptr
  | some p, head, next => update next p (some head)
  | none, _, next => next  -- `block_ops_end` is set while `in_process` is

/-! ## `map_block` -/

def build (req : BlockRequest bs) (scratch : Bytes) (w : Workers P) : Workers P :=
  let c : Chain n bs := Serial.chainOf req scratch w.pol
  { w with
    pol := (P.map req w.pol).2
    chains := update w.chains w.nextChain c
    bufs := update w.bufs w.nextChain c.bufs
    nextChain := w.nextChain + 1
    blockOpNext := linkChain w.nextChain c.ops.length w.blockOpNext
    mapped := update w.mapped req.block (w.mapped req.block ++ [req])
    accepted := update w.accepted req.block (w.accepted req.block ++ [w.nextChain]) }

def append (b k : Nat) (w : Workers P) : Workers P :=
  if w.inProcess b then
    -- a worker is on its way through the block's chains, and will come to this one
    { w with
      blockOpNext := linkEnd (w.blockOpsEnd b) ⟨k, 0⟩ w.blockOpNext
      blockOpsEnd := update w.blockOpsEnd b (some (w.completeOp k)) }
  else
    { w with
      inProcess := update w.inProcess b true
      blockOpsEnd := update w.blockOpsEnd b (some (w.completeOp k))
      tasks := w.tasks ++ [.send ⟨k, 0⟩] }

def mapBlock (req : BlockRequest bs) (scratch : Bytes) (w : Workers P) : Workers P :=
  (w.build req scratch).append req.block w.nextChain

section MapBlock

variable {req : BlockRequest bs} {scratch : Bytes} {w : Workers P}

@[simp] theorem mapBlock_pol : (w.mapBlock req scratch).pol = (P.map req w.pol).2 := by
  unfold mapBlock append; split <;> rfl

@[simp] theorem mapBlock_chains : (w.mapBlock req scratch).chains
    = update w.chains w.nextChain (Serial.chainOf req scratch w.pol) := by
  unfold mapBlock append; split <;> rfl

@[simp] theorem mapBlock_bufs : (w.mapBlock req scratch).bufs
    = update w.bufs w.nextChain ⟨req.data, scratch⟩ := by
  unfold mapBlock append; split <;> rfl

@[simp] theorem mapBlock_nextChain : (w.mapBlock req scratch).nextChain = w.nextChain + 1 := by
  unfold mapBlock append; split <;> rfl

@[simp] theorem mapBlock_mapped : (w.mapBlock req scratch).mapped
    = update w.mapped req.block (w.mapped req.block ++ [req]) := by
  unfold mapBlock append; split <;> rfl

@[simp] theorem mapBlock_accepted : (w.mapBlock req scratch).accepted
    = update w.accepted req.block (w.accepted req.block ++ [w.nextChain]) := by
  unfold mapBlock append; split <;> rfl

@[simp] theorem mapBlock_sent : (w.mapBlock req scratch).sent = w.sent := by
  unfold mapBlock append; split <;> rfl

@[simp] theorem mapBlock_notified : (w.mapBlock req scratch).notified = w.notified := by
  unfold mapBlock append; split <;> rfl

@[simp] theorem mapBlock_inProcess : (w.mapBlock req scratch).inProcess
    = update w.inProcess req.block true := by
  unfold mapBlock append
  split
  · rename_i h
    exact (update_eq_self_iff.mpr (Eq.symm h)).symm
  · rfl

theorem mapBlock_blockOpsEnd : (w.mapBlock req scratch).blockOpsEnd
    = update w.blockOpsEnd req.block
      (some ((w.mapBlock req scratch).completeOp w.nextChain)) := by
  unfold mapBlock append; split <;> rfl

theorem mapBlock_tasks : (w.mapBlock req scratch).tasks
    = if w.inProcess req.block then w.tasks else w.tasks ++ [.send ⟨w.nextChain, 0⟩] := by
  unfold mapBlock append
  split
  · rename_i h; rw [if_pos (show w.inProcess req.block = true from h)]; rfl
  · rename_i h; rw [if_neg (show ¬ w.inProcess req.block = true from h)]; rfl

theorem mapBlock_blockOpNext : (w.mapBlock req scratch).blockOpNext
    = if w.inProcess req.block then
        linkEnd (w.blockOpsEnd req.block) ⟨w.nextChain, 0⟩
          (linkChain w.nextChain (P.map req w.pol).1.length w.blockOpNext)
      else linkChain w.nextChain (P.map req w.pol).1.length w.blockOpNext := by
  unfold mapBlock append
  split
  · rename_i h; rw [if_pos (show w.inProcess req.block = true from h)]; rfl
  · rename_i h; rw [if_neg (show ¬ w.inProcess req.block = true from h)]; rfl

end MapBlock

/-! ## `send` and `complete` -/

def continueAs (i : Nat) (cont : List Task) (w : Workers P) : List Task :=
  w.tasks.take i ++ cont ++ w.tasks.drop (i + 1)

def sendNext (p : Ptr) (w : Workers P) : List Task := (w.blockOpNext p).toList.map .send

def recordSent (p : Ptr) (w : Workers P) : Nat → List Ptr :=
  update w.sent (w.blockOf p) (w.sent (w.blockOf p) ++ [p])

/-- What the request of chain `k` is completed with. -/
def completion (k : Nat) (r : Int) (w : Workers P) : Completion bs :=
  ⟨w.reqOf k, r, (w.bufs k).dataPtr⟩

/-- An operation's `send`, and `BlockOp::complete` with a result that is no error. -/
def sendOp (i : Nat) (p : Ptr) (op : BlockOp n) (w : Workers P) : Workers P :=
  let x := P.send (w.reqOf p.chain) op (w.bufs p.chain, w.pol)
  { w with
    pol := x.2
    bufs := update w.bufs p.chain x.1
    sent := w.recordSent p
    tasks := w.continueAs i (w.sendNext p) }

def failOp (i : Nat) (p : Ptr) (r : Int) (w : Workers P) : Workers P :=
  { w with
    notified := w.notified ++ [w.completion p.chain r]
    tasks := w.continueAs i [] }

def lockedSection (i : Nat) (p : Ptr) (w : Workers P) : Workers P :=
  match w.blockOpNext p with
  | some _ =>
    { w with
      sent := w.recordSent p
      tasks := w.continueAs i [.completed p true] }
  -- nothing was appended: the next request of the block starts a worker of its own
  | none =>
    { w with
      sent := w.recordSent p
      inProcess := update w.inProcess (w.blockOf p) false
      blockOpsEnd := update w.blockOpsEnd (w.blockOf p) none
      tasks := w.continueAs i [.completed p false] }

@[simp] theorem lockedSection_sent (i : Nat) (p : Ptr) (w : Workers P) :
    (w.lockedSection i p).sent = w.recordSent p := by
  unfold lockedSection; split <;> rfl

@[simp] theorem lockedSection_pol (i : Nat) (p : Ptr) (w : Workers P) :
    (w.lockedSection i p).pol = w.pol := by
  unfold lockedSection; split <;> rfl

@[simp] theorem lockedSection_bufs (i : Nat) (p : Ptr) (w : Workers P) :
    (w.lockedSection i p).bufs = w.bufs := by
  unfold lockedSection; split <;> rfl

@[simp] theorem lockedSection_notified (i : Nat) (p : Ptr) (w : Workers P) :
    (w.lockedSection i p).notified = w.notified := by
  unfold lockedSection; split <;> rfl

@[simp] theorem lockedSection_mapped (i : Nat) (p : Ptr) (w : Workers P) :
    (w.lockedSection i p).mapped = w.mapped := by
  unfold lockedSection; split <;> rfl

def notify (i : Nat) (p : Ptr) (callNext : Bool) (w : Workers P) : Workers P :=
  { w with
    notified := w.notified ++ [w.completion p.chain 0]
    tasks := w.continueAs i (if callNext then w.sendNext p else []) }

def work (i : Nat) (w : Workers P) : Option (Workers P) :=
  match w.tasks[i]? with
  | some (.send p) =>
    match w.opAt p with
    -- an assertion that fails ends the process
    | some op => if op.assertion then some (w.sendOp i p op) else none
    | none => some (w.lockedSection i p)
  | some (.completed p callNext) => some (w.notify i p callNext)
  | none => none

/-- What a worker does next when the store call it makes reports an error. -/
def fail (i : Nat) (r : Int) (w : Workers P) : Option (Workers P) :=
  match w.tasks[i]? with
  | some (.send p) =>
    match w.opAt p with
    | some op => if op.fallible ∧ r < 0 then some (w.failOp i p r) else none
    | none => none
  | _ => none

end Workers

/-- The core: the workers, and the requests on their way to them. -/
structure HDCSCore {n bs : Nat} (P : Policy n bs) extends Workers P where
  requestQueue : List Request
  /-- `block_request_list` up to the iterator: what the scan has left where it is. -/
  skipped : List (BlockRequest bs)
  /-- `block_request_list` from the iterator on. -/
  unscanned : List (BlockRequest bs)
  /-- `block_request_list_lock` is held. -/
  scanning : Bool
  /-- How many requests have been processed. -/
  requests : Nat
  /-- What `create_block_requests` appended for a block, in order. -/
  arrived : Nat → List (BlockRequest bs)

namespace HDCSCore

variable {n bs : Nat} {P : Policy n bs}

def start (pol : P.State) : HDCSCore P where
  toWorkers := Workers.start pol
  requestQueue := []
  skipped := []
  unscanned := []
  scanning := false
  requests := 0
  arrived := fun _ => []

def processRequest (hbs : 0 < bs) (r : Request) (s : HDCSCore P) : HDCSCore P :=
  { s with
    requests := s.requests + 1
    skipped := []
    unscanned := s.skipped ++ s.unscanned ++ createBlockRequests bs hbs s.requests r
    scanning := true
    arrived := fun b =>
      s.arrived b ++ (createBlockRequests bs hbs s.requests r).filter (·.block = b) }

def scanStep (scratch : Bytes) (s : HDCSCore P) : Option (HDCSCore P) :=
  match s.unscanned with
  | [] => none
  | req :: rest =>
    -- the flag is looked at anew for each element, and a worker may lower it at any time
    if P.inDiscardProcess s.pol req.block then
      some { s with skipped := s.skipped ++ [req], unscanned := rest }
    else some { s with toWorkers := s.toWorkers.mapBlock req scratch, unscanned := rest }

inductive Act where
  /-- `request_queue.enqueue`, by `aio_read`, `aio_write` or the policy. -/
  | submit (r : Request)
  /-- `process` takes a request off the queue and enters `process_request`. -/
  | process
  /-- `queue_io` enters `process_request`. -/
  | queueIo (r : Request)
  /-- One round of the loop; `scratch` is what a scratch block holds when it is allocated. -/
  | scan (scratch : Bytes)
  /-- The loop is through, and the lock is released. -/
  | scanEnd
  /-- The task at position `i` goes on, and no store call fails. -/
  | work (i : Nat)
  /-- The operation that the task at position `i` sends reports `r`. -/
  | fail (i : Nat) (r : Int)

/-- What an action does, where it is possible. -/
def step (hbs : 0 < bs) (s : HDCSCore P) : Act → Option (HDCSCore P)
  | .submit r => some { s with requestQueue := s.requestQueue ++ [r] }
  | .process =>
    match s.requestQueue with
    | [] => none
    | r :: q =>
      if s.scanning then none
      else some ({ s with requestQueue := q }.processRequest hbs r)
  | .queueIo r => if s.scanning then none else some (s.processRequest hbs r)
  | .scan scratch => if s.scanning then s.scanStep scratch else none
  | .scanEnd =>
    if s.scanning ∧ s.unscanned.isEmpty then some { s with scanning := false } else none
  | .work i => (s.toWorkers.work i).map fun w => { s with toWorkers := w }
  | .fail i r => (s.toWorkers.fail i r).map fun w => { s with toWorkers := w }

inductive Moves (hbs : 0 < bs) (s : HDCSCore P) : Act → HDCSCore P → Prop where
  | submit (r : Request) :
      Moves hbs s (.submit r) { s with requestQueue := s.requestQueue ++ [r] }
  | process (r : Request) (q : List Request) :
      s.requestQueue = r :: q → s.scanning = false →
      Moves hbs s .process ({ s with requestQueue := q }.processRequest hbs r)
  | queueIo (r : Request) :
      s.scanning = false → Moves hbs s (.queueIo r) (s.processRequest hbs r)
  | skip (scratch : Bytes) (req : BlockRequest bs) (rest : List (BlockRequest bs)) :
      s.scanning = true → s.unscanned = req :: rest →
      P.inDiscardProcess s.pol req.block = true →
      Moves hbs s (.scan scratch) { s with skipped := s.skipped ++ [req], unscanned := rest }
  | map (scratch : Bytes) (req : BlockRequest bs) (rest : List (BlockRequest bs)) :
      s.scanning = true → s.unscanned = req :: rest →
      P.inDiscardProcess s.pol req.block = false →
      Moves hbs s (.scan scratch)
        { s with toWorkers := s.toWorkers.mapBlock req scratch, unscanned := rest }
  | scanEnd :
      s.scanning = true → s.unscanned = [] → Moves hbs s .scanEnd { s with scanning := false }
  | send (i : Nat) (p : Ptr) (op : BlockOp n) :
      s.tasks[i]? = some (.send p) → s.opAt p = some op → op.assertion = true →
      Moves hbs s (.work i) { s with toWorkers := s.toWorkers.sendOp i p op }
  | locked (i : Nat) (p : Ptr) :
      s.tasks[i]? = some (.send p) → s.opAt p = none →
      Moves hbs s (.work i) { s with toWorkers := s.toWorkers.lockedSection i p }
  | notify (i : Nat) (p : Ptr) (callNext : Bool) :
      s.tasks[i]? = some (.completed p callNext) →
      Moves hbs s (.work i) { s with toWorkers := s.toWorkers.notify i p callNext }
  | fail (i : Nat) (r : Int) (p : Ptr) (op : BlockOp n) :
      s.tasks[i]? = some (.send p) → s.opAt p = some op → op.fallible = true → r < 0 →
      Moves hbs s (.fail i r) { s with toWorkers := s.toWorkers.failOp i p r }

theorem scanStep_moves (hbs : 0 < bs) {s s' : HDCSCore P} {scratch : Bytes}
    (hsc : s.scanning = true) (h : s.scanStep scratch = some s') :
    Moves hbs s (.scan scratch) s' := by
  rw [scanStep] at h
  split at h
  · cases h
  · rename_i req rest hu
    split at h
    · rename_i hd
      cases h
      exact .skip scratch req rest hsc hu hd
    · rename_i hd
      cases h
      exact .map scratch req rest hsc hu (by simpa using hd)

theorem work_moves (hbs : 0 < bs) {s : HDCSCore P} {w : Workers P} {i : Nat}
    (h : s.toWorkers.work i = some w) : Moves hbs s (.work i) { s with toWorkers := w } := by
  rw [Workers.work] at h
  split at h
  · rename_i p hp
    split at h
    · rename_i op hop
      split at h
      · rename_i ha
        cases h
        exact .send i p op hp hop ha
      · cases h
    · rename_i hop
      cases h
      exact .locked i p hp hop
  · rename_i p callNext hp
    cases h
    exact .notify i p callNext hp
  · cases h

theorem fail_moves (hbs : 0 < bs) {s : HDCSCore P} {w : Workers P} {i : Nat} {r : Int}
    (h : s.toWorkers.fail i r = some w) : Moves hbs s (.fail i r) { s with toWorkers := w } := by
  rw [Workers.fail] at h
  split at h
  · rename_i p hp
    split at h
    · rename_i op hop
      split at h
      · rename_i ha
        cases h
        exact .fail i r p op hp hop ha.1 ha.2
      · cases h
    · cases h
  · cases h

theorem step_moves {hbs : 0 < bs} {s s' : HDCSCore P} {a : Act} (h : s.step hbs a = some s') :
    Moves hbs s a s' := by
  cases a with
  | submit r =>
    cases h
    exact .submit r
  | process =>
    rw [step] at h
    split at h
    · cases h
    · rename_i r q hq
      split at h
      · cases h
      · rename_i hs
        cases h
        exact .process r q hq (by simpa using hs)
  | queueIo r =>
    rw [step] at h
    split at h
    · cases h
    · rename_i hs
      cases h
      exact .queueIo r (by simpa using hs)
  | scan scratch =>
    rw [step] at h
    split at h
    · rename_i hsc
      exact scanStep_moves hbs hsc h
    · cases h
  | scanEnd =>
    rw [step] at h
    split at h
    · rename_i hs
      cases h
      exact .scanEnd hs.1 (by simpa using hs.2)
    · cases h
  | work i =>
    obtain ⟨w, hw, rfl⟩ := Option.map_eq_some_iff.mp h
    exact work_moves hbs hw
  | fail i r =>
    obtain ⟨w, hw, rfl⟩ := Option.map_eq_some_iff.mp h
    exact fail_moves hbs hw

end HDCSCore

end HDCS
