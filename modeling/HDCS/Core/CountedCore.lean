import HDCS.Core.HDCSCore
import Mathlib.Algebra.Ring.Int.Defs

/-!
# The core, and what its requests count

`Request.h`, over the core of `HDCSCore.lean`. Cutting a request into block requests raises its
`pending_requests` once for each of them, in the constructor of `BlockRequest`. Every chain ends in
one of two ways, with `BlockOp::complete` and an error or with its `BlockRequestComplete`, and
either way the request is told, by `BlockRequest::complete`. There are no replicas, so `comp` is the
completion of the client.

The locked section of `Request::complete` is in the step of the core that calls it. A thread that
has lowered the count to zero then reads `status` without the lock, and calls `comp`: that is a step
of its own here, and anything may happen before it.

`started` and `ended` are records of the run.
-/

namespace HDCS

structure RequestCount where
  pendingRequests : UInt32
  status : Int64
  deriving DecidableEq, Repr

namespace RequestCount

def new : RequestCount := ⟨0, 0⟩

def addRequest (c : RequestCount) : RequestCount :=
  { c with pendingRequests := c.pendingRequests + 1 }

/-- The locked section of `Request::complete`, for an `int`; the flag is `completed`. -/
def complete (r : Int) (c : RequestCount) : RequestCount × Bool :=
  let pending := c.pendingRequests - 1
  (⟨pending, c.status + .ofInt r⟩, pending == 0)

end RequestCount

/-- A call of `block_request->complete`: the chain that ended, its request, and the result. -/
structure ChainEnd where
  chain : Nat
  req : Nat
  r : Int
  deriving DecidableEq, Repr

/-- The core with the counts of its requests. -/
structure CountedCore {n bs : Nat} (P : Policy n bs) where
  core : HDCSCore P
  /-- The counts, by the number of the request. -/
  counts : Nat → RequestCount
  /-- The requests of the threads past `req_mutex.unlock` that have found `completed` set. -/
  leaving : List Nat
  /-- The calls of `comp->complete`, in order. -/
  reported : List (Nat × Int64)
  /-- The requests that have been processed, by number. -/
  started : List Request
  /-- The chains that have ended, in order. -/
  ended : List ChainEnd

namespace HDCSCore

variable {n bs : Nat} {P : Policy n bs}

def cuts (f : HDCSCore P) : Act → Option Request
  | .process => f.requestQueue.head?
  | .queueIo r => some r
  | .submit _ | .scan _ | .scanEnd | .work _ | .fail _ _ => none

def completes (f : HDCSCore P) : Act → Option (Nat × Int)
  | .work i =>
    match f.tasks[i]? with
    | some (.completed p _) => some (p.chain, 0)
    | _ => none
  | .fail i r =>
    match f.tasks[i]? with
    | some (.send p) => some (p.chain, r)
    | _ => none
  | .submit _ | .process | .queueIo _ | .scan _ | .scanEnd => none

def fitsInt : Act → Bool
  | .fail _ r => -2 ^ 31 ≤ r
  | .submit _ | .process | .queueIo _ | .scan _ | .scanEnd | .work _ => true

end HDCSCore

namespace CountedCore

variable {n bs : Nat} {P : Policy n bs}

def start (pol : P.State) : CountedCore P := ⟨.start pol, fun _ => .new, [], [], [], []⟩

def begin (hbs : 0 < bs) (r : Request) (s : CountedCore P) : CountedCore P :=
  { s with
    counts := Function.update s.counts s.core.requests
      ((createBlockRequests bs hbs s.core.requests r).foldl (fun c _ => c.addRequest) .new)
    started := s.started ++ [r] }

def complete (chain : Nat) (r : Int) (s : CountedCore P) : CountedCore P :=
  let req := (s.core.reqOf chain).req
  let c := (s.counts req).complete r
  { s with
    counts := Function.update s.counts req c.1
    leaving := if c.2 then s.leaving ++ [req] else s.leaving
    ended := s.ended ++ [⟨chain, req, r⟩] }

def count (hbs : 0 < bs) (a : HDCSCore.Act) (s : CountedCore P) : CountedCore P :=
  match s.core.cuts a, s.core.completes a with
  | some r, _ => s.begin hbs r
  | none, some (chain, r) => s.complete chain r
  | none, none => s

inductive Act where
  | core (a : HDCSCore.Act)
  /-- `comp->complete(status)`, by the thread at position `i` of those that have come so far. -/
  | report (i : Nat)

def step (hbs : 0 < bs) (s : CountedCore P) : Act → Option (CountedCore P)
  | .core a =>
    if HDCSCore.fitsInt a then
      (s.core.step hbs a).map fun core => { s.count hbs a with core }
    else none
  | .report i =>
    (s.leaving[i]?).map fun req =>
      { s with
        leaving := s.leaving.eraseIdx i
        reported := s.reported ++ [(req, (s.counts req).status)] }

inductive Moves (hbs : 0 < bs) (s : CountedCore P) : Act → CountedCore P → Prop where
  | quiet (a : HDCSCore.Act) (core : HDCSCore P) :
      s.core.step hbs a = some core → s.core.cuts a = none → s.core.completes a = none →
      Moves hbs s (.core a) { s with core }
  | begin (a : HDCSCore.Act) (core : HDCSCore P) (r : Request) :
      s.core.step hbs a = some core → s.core.cuts a = some r →
      Moves hbs s (.core a) { s.begin hbs r with core }
  | complete (a : HDCSCore.Act) (core : HDCSCore P) (chain : Nat) (r : Int) :
      s.core.step hbs a = some core → s.core.cuts a = none →
      s.core.completes a = some (chain, r) → HDCSCore.fitsInt a = true →
      Moves hbs s (.core a) { s.complete chain r with core }
  | report (i req : Nat) :
      s.leaving[i]? = some req →
      Moves hbs s (.report i)
        { s with
          leaving := s.leaving.eraseIdx i
          reported := s.reported ++ [(req, (s.counts req).status)] }

theorem step_moves {hbs : 0 < bs} {s s' : CountedCore P} {a : Act} (h : s.step hbs a = some s') :
    Moves hbs s a s' := by
  cases a with
  | core a =>
    rw [step] at h
    split at h
    · rename_i hfits
      obtain ⟨core, hcore, rfl⟩ := Option.map_eq_some_iff.mp h
      unfold count
      cases hcuts : s.core.cuts a with
      | some r => exact .begin a core r hcore hcuts
      | none =>
        cases hcompletes : s.core.completes a with
        | none => exact .quiet a core hcore hcuts hcompletes
        | some x => exact .complete a core x.1 x.2 hcore hcuts hcompletes hfits
    · exact (Option.some_ne_none _ h.symm).elim
  | report i =>
    obtain ⟨req, hreq, rfl⟩ := Option.map_eq_some_iff.mp h
    exact .report i req hreq

end CountedCore

end HDCS
