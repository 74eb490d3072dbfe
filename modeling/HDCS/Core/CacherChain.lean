import HDCS.Core.SimpleBlockCacher

/-!
# The pieces that wait in one entry of `SimpleBlockCacher`

The pieces of requests that start at one offset belong to one entry and wait there, while
another thread is at work on it. `handle_request` takes all of them at once, in order, and
marks those it will not execute: a write that is followed by another write, whatever their
lengths are. Then it makes them one after another (`do_op`).

The request of a piece is known by a number. What it has in its buffer is part of the state,
since reads write it.
-/

namespace HDCS

open Lib SimpleBlockCacher

/-- `REQ_READ` or `REQ_WRITE`. -/
inductive CacherChain.ReqType where
  | read
  | write
  deriving DecidableEq

/-- What of a `Request` its pieces depend on. -/
structure CacherChain.Req where
  ioType : CacherChain.ReqType
  ts : Nat

/-- An `Op` with its request. -/
structure CacherChain.PendingOp extends Op where
  req : Nat

namespace CacherChain

/-- `req_chain`: as many as a `uint16_t` says there are. -/
def reqChain (pending : List PendingOp) : List PendingOp := pending.take (pending.length % 2 ^ 16)

/-- One round of the loop that sets the hints, with `write_after` and the hints of those behind. -/
def setHint (ioType : ReqType) (x : Bool × List Bool) : Bool × List Bool :=
  let writeAfter := if ioType = .read then false else x.1
  (if ioType = .write then true else writeAfter, writeAfter :: x.2)

/-- The hints. The loop counts down in an `int16_t`, and does nothing where that is negative from
the start. -/
def hints (ioTypes : List ReqType) : List Bool :=
  if Int.bmod (ioTypes.length - 1) (2 ^ 16) < 0 then ioTypes.map fun _ => false
  else (ioTypes.foldr setHint (false, [])).2

variable (objectSize : Nat) (requests : Nat → Req)

/-- `do_op`, on the cacher and the buffers. -/
def doOp (now : Nat) (s : SimpleBlockCacher × (Nat → Bytes)) (op : PendingOp) (hint : Bool) :
    Option (SimpleBlockCacher × (Nat → Bytes)) :=
  if hint then some s
  else
    match (requests op.req).ioType with
    | .read =>
      (read objectSize (s.1, s.2 op.req) op.toOp).map fun r =>
        (r.1, Function.update s.2 op.req r.2)
    | .write =>
      (write objectSize (s.2 op.req) (requests op.req).ts now s.1 op.toOp).map (·, s.2)

/-- `do_op` for one after another, each with its hint. The clock says when. -/
def doOps : (Nat → Nat) → List (PendingOp × Bool) → SimpleBlockCacher × (Nat → Bytes) →
    Option (SimpleBlockCacher × (Nat → Bytes))
  | _, [], s => some s
  | clock, x :: l, s =>
    (doOp objectSize requests (clock 0) s x.1 x.2).bind (doOps (fun i => clock (i + 1)) l)

/-- The chain with its hints. -/
def hinted (chain : List PendingOp) : List (PendingOp × Bool) :=
  chain.zip (hints (chain.map fun op => (requests op.req).ioType))

/-- One round of `handle_request`. -/
def handleRequest (clock : Nat → Nat) (pending : List PendingOp)
    (s : SimpleBlockCacher × (Nat → Bytes)) : Option (SimpleBlockCacher × (Nat → Bytes)) :=
  doOps objectSize requests clock (hinted requests (reqChain pending)) s

/-- The same without hints, which is what it has to look like. -/
def handleInOrder (clock : Nat → Nat) (pending : List PendingOp)
    (s : SimpleBlockCacher × (Nat → Bytes)) : Option (SimpleBlockCacher × (Nat → Bytes)) :=
  doOps objectSize requests clock ((reqChain pending).map (·, false)) s

end CacherChain

end HDCS
