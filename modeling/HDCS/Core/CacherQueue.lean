import HDCS.Core.CacherChain

/-!
# The entries of `SimpleBlockCacher` and the threads that work on them

`map_request_to_cache_entry` puts a piece into the queue of its entry. If nobody is at work on the
entry it says so in `process_inflight` and gives the entry to `scache_op_threads`. `handle_request`
takes what is in the queue, makes it, and looks again; when there is nothing it takes back
`process_inflight`.

Whoever changes the queue or `process_inflight` holds the lock of the entry, so what is done under
it is one step. The first time `handle_request` looks at the queue it does not hold the lock. What a
piece does to the cache is not looked at here.

`accepted` and `made` are records of the run; no step reads them.
-/

namespace HDCS

open CacherChain

structure CacherQueue.CacheEntry where
  pendingReq : List PendingOp
  processInflight : Bool
  /-- The pieces that were put into the queue. -/
  accepted : List PendingOp
  /-- The pieces that `do_op` was called with, and their hints. -/
  made : List (PendingOp × Bool)

/-- Where a call of `handle_request` is. -/
inductive CacherQueue.HandlePhase where
  /-- Before it looks at the queue for the first time. -/
  | first
  /-- There is something in the queue; before it takes the lock. -/
  | taking
  /-- These are still to be made. When there are none it takes the lock and looks again. -/
  | making (chain : List (PendingOp × Bool))

structure CacherQueue where
  entries : Nat → CacherQueue.CacheEntry
  /-- The calls of `handle_request` that no thread has taken yet, by their entries. -/
  jobs : List Nat
  /-- The threads of `scache_op_threads`, and the calls they are in. -/
  threads : List (Option (Nat × CacherQueue.HandlePhase))

namespace CacherQueue

def start (threads : Nat) : CacherQueue :=
  ⟨fun _ => ⟨[], false, [], []⟩, [], List.replicate threads none⟩

def CacheEntry.pendRequest (op : PendingOp) (entry : CacheEntry) : CacheEntry :=
  { entry with pendingReq := entry.pendingReq ++ [op], accepted := entry.accepted ++ [op] }

def mapRequest (e : Nat) (op : PendingOp) (s : CacherQueue) : CacherQueue :=
  let entry := (s.entries e).pendRequest op
  if entry.processInflight then { s with entries := Function.update s.entries e entry }
  else
    { s with
      entries := Function.update s.entries e { entry with processInflight := true }
      jobs := s.jobs ++ [e] }

def CacheEntry.look (entry : CacheEntry) : CacheEntry × Option HandlePhase :=
  if entry.pendingReq.length ≠ 0 then (entry, some .taking)
  else ({ entry with processInflight := false }, none)

variable (requests : Nat → Req)

def CacheEntry.take (entry : CacheEntry) : CacheEntry × Option HandlePhase :=
  let pending := entry.pendingReq
  ({ entry with pendingReq := pending.drop (pending.length % 2 ^ 16) },
    some (.making (hinted requests (reqChain pending))))

def CacheEntry.handle (entry : CacheEntry) : HandlePhase → CacheEntry × Option HandlePhase
  | .first => entry.look
  | .taking => entry.take requests
  | .making [] => entry.look
  | .making (x :: chain) => ({ entry with made := entry.made ++ [x] }, some (.making chain))

inductive Act where
  | map (e : Nat) (op : PendingOp)
  /-- A thread takes the next job. -/
  | begin (w : Nat)
  /-- It goes on with the call it is in. -/
  | handle (w : Nat)

def step (s : CacherQueue) : Act → Option CacherQueue
  | .map e op => some (s.mapRequest e op)
  | .begin w =>
    match s.threads[w]?, s.jobs with
    | some none, e :: jobs =>
      some { s with jobs, threads := s.threads.set w (some (e, .first)) }
    | _, _ => none
  | .handle w =>
    match s.threads[w]? with
    | some (some (e, p)) =>
      let x := (s.entries e).handle requests p
      some { s with
        entries := Function.update s.entries e x.1
        threads := s.threads.set w (x.2.map (e, ·)) }
    | _ => none

end CacherQueue

end HDCS
