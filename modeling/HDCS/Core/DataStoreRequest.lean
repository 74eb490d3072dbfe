import HDCS.Core.AioCompletion

/-!
# The batch of a request

`DataStoreRequest.h`. The blocks that the chains of a request hand in are kept in
a `std::map` from block ids to buffers, and neighbours are joined: a block whose
buffer begins where the buffer of an entry ends becomes part of that entry, and an
entry whose buffer begins where the block's ends becomes part of the block. Only
the addresses are compared.

Buffers are addresses here. Which bytes are there, and who frees them when, is up
to the chains.
-/

namespace HDCS

/-- An entry of `data_store_req_chain`. -/
structure Segment where
  /-- The block it is written to. -/
  block : Nat
  length : Nat
  /-- The address of its buffer. -/
  data : Nat
  deriving DecidableEq, Repr

/-- `data_store_req_chain`, in the order of the block ids. -/
abbrev SegmentChain := List Segment

namespace SegmentChain

def insert (x : Segment) : SegmentChain → SegmentChain
  | [] => [x]
  | y :: c => if x.block < y.block then x :: y :: c else y :: insert x c

def assign (x : Segment) (c : SegmentChain) : SegmentChain :=
  if c.any (fun y => y.block == x.block) then c.map fun y => if y.block = x.block then x else y
  else insert x c

def erase (b : Nat) (c : SegmentChain) : SegmentChain := c.filter fun y => y.block ≠ b

def next (b : Nat) (c : SegmentChain) : Option Nat :=
  (c.find? fun y => b < y.block).map Segment.block

end SegmentChain

structure Merge where
  chain : SegmentChain
  blockId : Nat
  /-- `block_size_tmp`. -/
  size : Nat
  data : Nat
  inserted : Bool

namespace Merge

def before (cur : Segment) (m : Merge) : Merge :=
  if cur.data + cur.length = m.data then
    { chain := m.chain.assign ⟨cur.block, cur.length + m.size, cur.data⟩
      blockId := cur.block
      size := cur.length + m.size
      data := cur.data
      inserted := true }
  else m

def after (cur : Segment) (length : Nat) (m : Merge) : Merge :=
  if m.data + m.size = cur.data then
    { m with
      chain := (m.chain.assign ⟨m.blockId, m.size + length, m.data⟩).erase cur.block
      size := m.size + length
      inserted := true }
  else m

def visit (cur : Segment) (m : Merge) : Merge :=
  -- the first merge makes the entry it found longer, and the second one looks at it again
  let length := if cur.data + cur.length = m.data then cur.length + m.size else cur.length
  (m.before cur).after cur length

def loop : Nat → Option Nat → Merge → Merge
  | rounds + 1, some it, m =>
    match m.chain.find? fun y => it ≤ y.block with
    | some cur => loop rounds (m.chain.next cur.block) (m.visit cur)
    | none => m
  | _, _, m => m

end Merge

def prepareRequest (bs blockId data : Nat) (c : SegmentChain) : SegmentChain :=
  -- the loop comes past every entry once, and at most once past the one it adds
  let m := Merge.loop (c.length + 1) (c.head?.map Segment.block) ⟨c, blockId, bs, data, false⟩
  if m.inserted then m.chain else m.chain.assign ⟨m.blockId, m.size, m.data⟩

/-- What `submit_request` does next. -/
inductive SubmitOp where
  /-- An HDCS_WRITE message to a replica. -/
  | message (x : Segment) (replica : Nat)
  /-- `data_store->write`. -/
  | write (x : Segment)
  deriving DecidableEq, Repr

/-- `submit_request`, as long as the store does not fail. -/
def submitRequest (replicas : Nat) (c : SegmentChain) : List SubmitOp :=
  c.flatMap fun x => (List.range replicas).map (.message x) ++ [.write x]

end HDCS
