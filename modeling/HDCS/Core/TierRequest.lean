import HDCS.Core.AioCompletion
import HDCS.Core.TierPolicy

/-!
# A request of the tier, with its batch

In tier mode the blocks of a WRITE are written together. Each chain hands its
buffer to the request's `DataStoreRequest` (`prepare_request`) and waits there
until all of them have; the last one writes everything that was handed in
(`submit_request`). This machine executes one request after the other, the chains
of a request in any order, operation by operation.

How the batch finds out that it is complete, and how it joins neighbouring blocks
into one write, are components of their own. Here a chain is let go when its batch
has been submitted, and the batch writes every block to its place.
-/

namespace HDCS

open Lib

def BlockOp.handsOver {n : Nat} : BlockOp n → Bool
  | .executeDataStoreRequest _ _ => true
  | _ => false

structure BlockChain (n bs : Nat) where
  req : BlockRequest bs
  /-- The operations not sent yet. -/
  ops : List (BlockOp n)
  bufs : Bufs
  /-- In `wait_for_complete` of the batch. -/
  waiting : Bool

/-- The tier with the request it executes. -/
structure TierRequest (cfg : TierConfig) where
  pol : TierState cfg.blocksCount
  /-- The request, while one is being executed. -/
  current : Option Request
  /-- The blocks of the request, in order. -/
  blocks : List Nat
  /-- Their chains. -/
  chains : Nat → Option (BlockChain cfg.blocksCount cfg.blockSize)
  /-- The blocks handed to the batch, with what is to be written. -/
  prepared : List (Nat × Bytes)
  /-- `shared_count` of the batch's completion. -/
  sharedCount : Int
  /-- How often the batch's callback has still to run. -/
  callbacks : Nat
  submitted : Bool
  /-- The requests that were completed, in order, with what their buffers held. -/
  done : List (Request × Bytes)

namespace TierRequest

variable {cfg : TierConfig}

def start (pol : TierState cfg.blocksCount) : TierRequest cfg where
  pol := pol
  current := none
  blocks := []
  chains := fun _ => none
  prepared := []
  sharedCount := 0
  callbacks := 0
  submitted := false
  done := []

inductive Act where
  /-- A request arrives and is mapped; the scratch blocks hold what the allocator left there. -/
  | request (r : Request) (scratch : Nat → Bytes)
  /-- The next operation of the block's chain, which is no `ExecuteDataStoreRequest`. -/
  | send (b : Nat)
  /-- `prepare_request` of the block's chain, up to its `wait_for_complete`. -/
  | prepare (b : Nat)
  /-- `submit_request`. -/
  | submit
  /-- The block's chain returns from `prepare_request`. -/
  | pass (b : Nat)
  /-- The last chain has come to its end, and the request is completed. -/
  | finish

def blockRequests (cfg : TierConfig) (r : Request) : List (BlockRequest cfg.blockSize) :=
  createBlockRequests cfg.blockSize cfg.blockSize_pos 0 r

def mapBlock (scratch : Nat → Bytes) (s : TierRequest cfg) (q : BlockRequest cfg.blockSize) :
    TierRequest cfg :=
  let x := TierPolicy.map cfg q s.pol
  { s with
    pol := x.2
    chains := Function.update s.chains q.block (some ⟨q, x.1, ⟨q.data, scratch q.block⟩, false⟩) }

/-- `process_request`. -/
def request (r : Request) (scratch : Nat → Bytes) (s : TierRequest cfg) : TierRequest cfg :=
  (blockRequests cfg r).foldl (mapBlock scratch)
    { s with
      current := some r
      blocks := (blockRequests cfg r).map BlockRequest.block
      chains := fun _ => none
      prepared := []
      sharedCount := armedCount cfg.blockSize r
      callbacks := 0
      submitted := false }

def setChain (b : Nat) (c : BlockChain cfg.blocksCount cfg.blockSize) (s : TierRequest cfg) :
    TierRequest cfg :=
  { s with chains := Function.update s.chains b (some c) }

def send (b : Nat) (c : BlockChain cfg.blocksCount cfg.blockSize) (op : BlockOp cfg.blocksCount)
    (ops : List (BlockOp cfg.blocksCount)) (s : TierRequest cfg) : TierRequest cfg :=
  let x := TierPolicy.send cfg c.req op (c.bufs, s.pol)
  { s with pol := x.2 }.setChain b { c with ops := ops, bufs := x.1 }

def prepare (b : Nat) (c : BlockChain cfg.blocksCount cfg.blockSize) (id : Nat) (d : Buf)
    (ops : List (BlockOp cfg.blocksCount)) (s : TierRequest cfg) : TierRequest cfg :=
  let x := AioCompletion.complete s.sharedCount
  { s with
    prepared := s.prepared ++ [(id, c.bufs.get d)]
    sharedCount := x.1
    callbacks := s.callbacks + x.2.toNat }.setChain b { c with ops := ops, waiting := true }

def writeBlock (bs : Nat) (x : Bytes) (p : Nat × Bytes) : Bytes := memcpy x (p.1 * bs) p.2 0 bs

def submit (s : TierRequest cfg) : TierRequest cfg :=
  { s with
    pol := { s.pol with
      cacheData := s.prepared.foldl (writeBlock cfg.blockSize) s.pol.cacheData }
    callbacks := s.callbacks - 1
    submitted := true }

/-- The client's buffer, put together from what the chains left at their `data_ptr`. -/
def gather (chains : Nat → Option (BlockChain cfg.blocksCount cfg.blockSize)) : List Nat → Bytes
  | [] => fun _ => 0
  | b :: bs => fun i =>
    match chains b with
    | some c => if i < c.req.size then c.bufs.dataPtr i else gather chains bs (i - c.req.size)
    | none => gather chains bs i

def isThrough (s : TierRequest cfg) (b : Nat) : Bool :=
  (s.chains b).any fun c => c.ops.isEmpty && !c.waiting

def finish (r : Request) (s : TierRequest cfg) : TierRequest cfg :=
  { s with
    current := none
    blocks := []
    chains := fun _ => none
    done := s.done ++ [(r, gather s.chains s.blocks)] }

def step (s : TierRequest cfg) : Act → Option (TierRequest cfg)
  | .request r scratch => if s.current.isNone then some (s.request r scratch) else none
  | .send b =>
    match s.chains b with
    | some ⟨req, op :: ops, bufs, false⟩ =>
      if op.handsOver then none else some (s.send b ⟨req, op :: ops, bufs, false⟩ op ops)
    | _ => none
  | .prepare b =>
    match s.chains b with
    | some ⟨req, .executeDataStoreRequest id d :: ops, bufs, false⟩ =>
      some (s.prepare b ⟨req, .executeDataStoreRequest id d :: ops, bufs, false⟩ id d ops)
    | _ => none
  -- the call that brought the count to zero
  | .submit => if 0 < s.callbacks then some s.submit else none
  | .pass b =>
    match s.chains b with
    | some ⟨req, ops, bufs, true⟩ =>
      -- the barrier, taken to hold: nobody passes before the batch is in the store
      if s.sharedCount = 0 ∧ s.submitted then some (s.setChain b ⟨req, ops, bufs, false⟩)
      else none
    | _ => none
  | .finish =>
    match s.current with
    | some r => if s.blocks.all s.isThrough then some (s.finish r) else none
    | none => none

theorem step_cases {s s' : TierRequest cfg} {a : Act} (h : s.step a = some s') :
    (∃ r scratch, a = .request r scratch ∧ s.current = none ∧ s' = s.request r scratch)
    ∨ (∃ b c op ops, a = .send b ∧ s.chains b = some c ∧ c.ops = op :: ops ∧ c.waiting = false
        ∧ op.handsOver = false ∧ s' = s.send b c op ops)
    ∨ (∃ b c id d ops, a = .prepare b ∧ s.chains b = some c
        ∧ c.ops = .executeDataStoreRequest id d :: ops ∧ c.waiting = false
        ∧ s' = s.prepare b c id d ops)
    ∨ (a = .submit ∧ 0 < s.callbacks ∧ s' = s.submit)
    ∨ (∃ b c, a = .pass b ∧ s.chains b = some c ∧ c.waiting = true ∧ s.submitted = true
        ∧ s' = s.setChain b { c with waiting := false })
    ∨ (∃ r, a = .finish ∧ s.current = some r ∧ s.blocks.all s.isThrough = true
        ∧ s' = s.finish r) := by
  cases a with
  | request r scratch =>
    rw [step] at h
    split at h
    · rename_i hc
      exact Or.inl ⟨r, scratch, rfl, Option.isNone_iff_eq_none.mp hc, (Option.some.inj h).symm⟩
    · cases h
  | send b =>
    rw [step] at h
    split at h
    · rename_i req op ops bufs hc
      split at h
      · cases h
      · rename_i ho
        exact Or.inr (Or.inl ⟨b, _, op, ops, rfl, hc, rfl, rfl, by simpa using ho,
          (Option.some.inj h).symm⟩)
    · cases h
  | prepare b =>
    rw [step] at h
    split at h
    · rename_i req id d ops bufs hc
      exact Or.inr (Or.inr (Or.inl ⟨b, _, id, d, ops, rfl, hc, rfl, rfl, (Option.some.inj h).symm⟩))
    · cases h
  | submit =>
    rw [step] at h
    split at h
    · rename_i hc
      exact Or.inr (Or.inr (Or.inr (Or.inl ⟨rfl, hc, (Option.some.inj h).symm⟩)))
    · cases h
  | pass b =>
    rw [step] at h
    split at h
    · rename_i req ops bufs hc
      split at h
      · rename_i hs
        exact Or.inr (Or.inr (Or.inr (Or.inr (Or.inl ⟨b, _, rfl, hc, rfl, hs.2,
          (Option.some.inj h).symm⟩))))
      · cases h
    · cases h
  | finish =>
    rw [step] at h
    split at h
    · rename_i r hc
      split at h
      · rename_i hall
        exact Or.inr (Or.inr (Or.inr (Or.inr (Or.inr ⟨r, rfl, hc, hall,
          (Option.some.inj h).symm⟩))))
      · cases h
    · cases h

section Possible

variable {s : TierRequest cfg} {b : Nat} {c : BlockChain cfg.blocksCount cfg.blockSize}
  {op : BlockOp cfg.blocksCount} {ops : List (BlockOp cfg.blocksCount)}

/-- The request can be taken a step further. -/
def CanGoOn (s : TierRequest cfg) : Prop :=
  ∃ a s', (∀ r scratch, a ≠ .request r scratch) ∧ s.step a = some s'

theorem canGoOn_of_isSome {a : Act} (ha : ∀ r scratch, a ≠ .request r scratch)
    (h : (s.step a).isSome = true) : s.CanGoOn := by
  obtain ⟨s', hs⟩ := Option.isSome_iff_exists.mp h
  exact ⟨a, s', ha, hs⟩

theorem canGoOn_of_ops (hc : s.chains b = some c) (ho : c.ops = op :: ops)
    (hw : c.waiting = false) : s.CanGoOn := by
  obtain ⟨req, ops', bufs, waiting⟩ := c
  dsimp only at ho hw
  subst ho hw
  cases op with
  | executeDataStoreRequest id d =>
    exact canGoOn_of_isSome (a := .prepare b) (by simp) (by simp [step, hc])
  | _ => exact canGoOn_of_isSome (a := .send b) (by simp) (by simp [step, hc, BlockOp.handsOver])

theorem canGoOn_of_submitted (hc : s.chains b = some c) (hw : c.waiting = true)
    (hcount : s.sharedCount = 0) (hs : s.submitted = true) : s.CanGoOn := by
  obtain ⟨req, ops, bufs, waiting⟩ := c
  dsimp only at hw
  subst hw
  exact canGoOn_of_isSome (a := .pass b) (by simp) (by simp [step, hc, hcount, hs])

end Possible

end TierRequest

end HDCS
