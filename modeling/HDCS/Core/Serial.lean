import HDCS.Lib.Machine
import HDCS.Core.CacheSend

/-!
# Chains of one block, one after the other

The core runs the chains of a block in the order `map_block` accepted them, and
the chains of different blocks in any order. This machine takes that as given:
each block has a queue of chains, the first of which is running. An action maps
a request onto the end of its block's queue, sends the next operation of some
block's running chain, or closes the chain with its `BlockRequestComplete`. That
the hand-over in `HDCSCore.cpp` and `BlockOp.h` amounts to this is proved in
`HDCS/Proof/HandOver.lean`.

`process_request` does not map a request of a block that is being discarded, so
`accept` is not possible there. An operation whose store call reports an error
completes its request and stops: nothing of the chain, or behind it, is sent
again, and the chain stays where it is, marked as failed.

`accepted` and `completed`, and what a chain `took`, are records of the run; no
action reads them.
-/

namespace HDCS

open Lib Function

/-- A chain: the request it serves, the operations not sent yet, and its buffers. -/
structure Chain (n bs : Nat) where
  req : BlockRequest bs
  ops : List (BlockOp n)
  bufs : Bufs
  /-- An operation reported an error, so the first of `ops` was the last to be sent. -/
  failed : Bool
  /-- The entry that was attached to the block when the request was mapped. -/
  took : Option (Fin n)

/-- `block_request->complete(r)`, with what the request's buffer held then. -/
structure Completion (bs : Nat) where
  req : BlockRequest bs
  r : Int
  data : Bytes

/-- The blocks' queues over a policy. -/
structure Serial {n bs : Nat} (P : Policy n bs) where
  pol : P.State
  queue : Nat → List (Chain n bs)
  accepted : Nat → List (BlockRequest bs)
  completed : Nat → List (Completion bs)

namespace Serial

variable {n bs : Nat} {P : Policy n bs}

def start (pol : P.State) : Serial P := ⟨pol, fun _ => [], fun _ => [], fun _ => []⟩

inductive Act (bs : Nat) where
  /-- `map_block`; `scratch` is what the scratch block holds when it is allocated. -/
  | accept (req : BlockRequest bs) (scratch : Bytes)
  /-- The next operation of the block's running chain succeeds. -/
  | send (b : Nat)
  /-- The next operation of the block's running chain reports `r`. -/
  | fail (b : Nat) (r : Int)
  /-- `BlockRequestComplete` of the block's running chain. -/
  | finish (b : Nat)

def taken (before after : Option (Fin n)) : Option (Fin n) :=
  match before with
  | none => after
  | some _ => none

/-- The chain `map_block` appends. Its `data_ptr` is where the piece begins in the client's buffer,
which the pieces of one request share. A chain has a copy of its own here: the operations store to
it within the piece, except for a partial WRITE of a cached block, which reads the whole slot to
`data_ptr` and so reaches into the next piece (`HDCS/Proof/WriteThrough.lean`). -/
def chainOf (req : BlockRequest bs) (scratch : Bytes) (pol : P.State) : Chain n bs where
  req := req
  ops := (P.map req pol).1
  bufs := ⟨req.data, scratch⟩
  failed := false
  took := taken (P.entry pol req.block) (P.entry (P.map req pol).2 req.block)

def accept (req : BlockRequest bs) (scratch : Bytes) (s : Serial P) : Serial P :=
  { s with
    pol := (P.map req s.pol).2
    queue := update s.queue req.block (s.queue req.block ++ [chainOf req scratch s.pol])
    accepted := update s.accepted req.block (s.accepted req.block ++ [req]) }

/-- `op->send()` for the first operation of chain `c`, with `cs` waiting behind it. -/
def send (b : Nat) (c : Chain n bs) (cs : List (Chain n bs)) (op : BlockOp n)
    (ops : List (BlockOp n)) (s : Serial P) : Serial P :=
  { s with
    pol := (P.send c.req op (c.bufs, s.pol)).2
    queue := update s.queue b
      ({ c with ops := ops, bufs := (P.send c.req op (c.bufs, s.pol)).1 } :: cs) }

/-- The error branch of `BlockOp::complete`. -/
def fail (b : Nat) (r : Int) (c : Chain n bs) (cs : List (Chain n bs)) (s : Serial P) :
    Serial P :=
  { s with
    queue := update s.queue b ({ c with failed := true } :: cs)
    completed := update s.completed b (s.completed b ++ [⟨c.req, r, c.bufs.dataPtr⟩]) }

/-- `BlockRequestComplete`: the request is completed and the next chain takes over. -/
def finish (b : Nat) (c : Chain n bs) (cs : List (Chain n bs)) (s : Serial P) : Serial P :=
  { s with
    queue := update s.queue b cs
    completed := update s.completed b (s.completed b ++ [⟨c.req, 0, c.bufs.dataPtr⟩]) }

/-- What an action does, where it is possible. -/
def step (s : Serial P) : Act bs → Option (Serial P)
  | .accept req scratch =>
    if P.inDiscardProcess s.pol req.block then none else some (s.accept req scratch)
  | .send b =>
    match s.queue b with
    | ⟨req, op :: ops, bufs, false, took⟩ :: cs =>
      if op.assertion then some (s.send b ⟨req, op :: ops, bufs, false, took⟩ cs op ops)
      else none
    | _ => none
  | .fail b r =>
    match s.queue b with
    | ⟨req, op :: ops, bufs, false, took⟩ :: cs =>
      if op.fallible ∧ r < 0 then some (s.fail b r ⟨req, op :: ops, bufs, false, took⟩ cs)
      else none
    | _ => none
  | .finish b =>
    match s.queue b with
    | ⟨req, [], bufs, false, took⟩ :: cs => some (s.finish b ⟨req, [], bufs, false, took⟩ cs)
    | _ => none

theorem step_cases {s s' : Serial P} {a : Act bs} (h : s.step a = some s') :
    (∃ req scratch, a = .accept req scratch ∧ P.inDiscardProcess s.pol req.block = false
        ∧ s' = s.accept req scratch)
    ∨ (∃ b c cs op ops, a = .send b ∧ s.queue b = c :: cs ∧ c.failed = false
        ∧ c.ops = op :: ops ∧ op.assertion = true ∧ s' = s.send b c cs op ops)
    ∨ (∃ b r c cs op ops, a = .fail b r ∧ s.queue b = c :: cs ∧ c.failed = false
        ∧ c.ops = op :: ops ∧ op.fallible = true ∧ r < 0 ∧ s' = s.fail b r c cs)
    ∨ (∃ b c cs, a = .finish b ∧ s.queue b = c :: cs ∧ c.failed = false ∧ c.ops = []
        ∧ s' = s.finish b c cs) := by
  cases a with
  | accept req scratch =>
    rw [step] at h
    split at h
    · cases h
    · rename_i hd
      exact Or.inl ⟨req, scratch, rfl, by simpa using hd, (Option.some.inj h).symm⟩
  | send b =>
    rw [step] at h
    split at h
    · rename_i req op ops bufs took cs hq
      split at h
      · rename_i ha
        exact Or.inr (Or.inl ⟨b, _, cs, op, ops, rfl, hq, rfl, rfl, ha, (Option.some.inj h).symm⟩)
      · cases h
    · cases h
  | fail b r =>
    rw [step] at h
    split at h
    · rename_i req op ops bufs took cs hq
      split at h
      · rename_i ha
        exact Or.inr (Or.inr (Or.inl ⟨b, r, _, cs, op, ops, rfl, hq, rfl, rfl, ha.1, ha.2,
          (Option.some.inj h).symm⟩))
      · cases h
    · cases h
  | finish b =>
    rw [step] at h
    split at h
    · rename_i req bufs took cs hq
      exact Or.inr (Or.inr (Or.inr ⟨b, _, cs, rfl, hq, rfl, rfl, (Option.some.inj h).symm⟩))
    · cases h

section Possible

variable {s : Serial P} {b : Nat} {c : Chain n bs} {cs : List (Chain n bs)} {op : BlockOp n}
  {ops : List (BlockOp n)}

theorem step_accept {req : BlockRequest bs} {scratch : Bytes}
    (hd : P.inDiscardProcess s.pol req.block = false) :
    s.step (.accept req scratch) = some (s.accept req scratch) := by
  rw [step, if_neg (by simp [hd])]

theorem step_send (hq : s.queue b = c :: cs) (hf : c.failed = false) (ho : c.ops = op :: ops)
    (ha : op.assertion = true) : s.step (.send b) = some (s.send b c cs op ops) := by
  obtain ⟨req, ops', bufs, failed, took⟩ := c
  dsimp only at hf ho
  subst hf ho
  simp only [step, hq]
  rw [if_pos ha]

theorem step_fail {r : Int} (hq : s.queue b = c :: cs) (hf : c.failed = false)
    (ho : c.ops = op :: ops) (ha : op.fallible = true) (hr : r < 0) :
    s.step (.fail b r) = some (s.fail b r c cs) := by
  obtain ⟨req, ops', bufs, failed, took⟩ := c
  dsimp only at hf ho
  subst hf ho
  simp only [step, hq]
  rw [if_pos ⟨ha, hr⟩]

theorem step_finish (hq : s.queue b = c :: cs) (hf : c.failed = false) (ho : c.ops = []) :
    s.step (.finish b) = some (s.finish b c cs) := by
  obtain ⟨req, ops', bufs, failed, took⟩ := c
  dsimp only at hf ho
  subst hf ho
  simp only [step, hq]

end Possible

theorem of_step_fail {s s' : Serial P} {b : Nat} {r : Int} (h : s.step (.fail b r) = some s') :
    ∃ c cs op ops, s.queue b = c :: cs ∧ c.ops = op :: ops ∧ op.fallible = true
      ∧ s' = s.fail b r c cs := by
  rcases step_cases h with ⟨_, _, ha, _⟩ | ⟨_, _, _, _, _, ha, _⟩
    | ⟨b', r', c, cs, op, ops, ha, hq, _, hops, hop, _, rfl⟩ | ⟨_, _, _, ha, _⟩
  · cases ha
  · cases ha
  · obtain ⟨rfl, rfl⟩ := Act.fail.inj ha
    exact ⟨c, cs, op, ops, hq, hops, hop, rfl⟩
  · cases ha

/-! ## Chains that have not failed -/

section Alive

variable {s : Serial P} {b : Nat} {c : Chain n bs} {cs : List (Chain n bs)} {op : BlockOp n}
  {ops : List (BlockOp n)} (h : ∀ b, ∀ c ∈ s.queue b, c.failed = false)

include h

theorem alive_update {q : List (Chain n bs)} (hq : ∀ c ∈ q, c.failed = false) :
    ∀ b', ∀ c ∈ update s.queue b q b', c.failed = false :=
  (forall_update_iff s.queue fun _ (q : List (Chain n bs)) =>
    ∀ c ∈ q, c.failed = false).mpr ⟨hq, fun b' _ => h b'⟩

theorem alive_accept {req : BlockRequest bs} {scratch : Bytes} :
    ∀ b, ∀ c ∈ (s.accept req scratch).queue b, c.failed = false := by
  refine alive_update h fun c hc => ?_
  rcases List.mem_append.mp hc with hc | hc
  · exact h _ c hc
  · rw [List.mem_singleton.mp hc]; rfl

theorem alive_send (hq : s.queue b = c :: cs) :
    ∀ b', ∀ x ∈ (s.send b c cs op ops).queue b', x.failed = false := by
  have hb := h b
  rw [hq] at hb
  obtain ⟨hc, hcs⟩ := List.forall_mem_cons.mp hb
  refine alive_update h ?_
  exact List.forall_mem_cons.mpr ⟨hc, hcs⟩

theorem alive_finish (hq : s.queue b = c :: cs) :
    ∀ b', ∀ x ∈ (s.finish b c cs).queue b', x.failed = false := by
  have hb := h b
  rw [hq] at hb
  exact alive_update h (List.forall_mem_cons.mp hb).2

end Alive

end Serial

/-- No store call fails. -/
def ErrorFree {σ : Type} {bs : Nat} (_ : σ) : Serial.Act bs → Prop
  | .fail _ _ => False
  | _ => True

instance {σ : Type} {bs : Nat} (s : σ) (a : Serial.Act bs) : Decidable (ErrorFree s a) :=
  match a with
  | .fail _ _ => inferInstanceAs (Decidable False)
  | .accept _ _ | .send _ | .finish _ => inferInstanceAs (Decidable True)

theorem Serial.alive_reachable {n bs : Nat} {P : Policy n bs} {s₀ s : Serial P}
    (h₀ : ∀ b, ∀ c ∈ s₀.queue b, c.failed = false)
    (hr : Machine.Reachable Serial.step ErrorFree s₀ s) :
    ∀ b, ∀ c ∈ s.queue b, c.failed = false := by
  refine hr.invariant (I := fun s => ∀ b, ∀ c ∈ s.queue b, c.failed = false) h₀ ?_
  intro s a s' h ha hs
  rcases step_cases hs with ⟨req, scratch, rfl, _, rfl⟩
    | ⟨b, c, cs, op, ops, rfl, hq, _, _, _, rfl⟩ | ⟨b, r, c, cs, op, ops, rfl, _⟩
    | ⟨b, c, cs, rfl, hq, _, _, rfl⟩
  · exact alive_accept h
  · exact alive_send h hq
  · exact ha.elim
  · exact alive_finish h hq

end HDCS
