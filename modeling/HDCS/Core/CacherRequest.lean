import HDCS.Core.SimpleBlockCacher
import HDCS.Lib.Counting

/-!
# A request of `SimpleBlockCacher` from `process` to its completion

`process` cuts a request into pieces. Each of them is counted, the last one is marked, and
it is handed over to the entry it belongs to, where a thread of `scache_op_threads`
executes it and reports to the `Request` (`do_op`). A method of `Request` that holds
`complete_lock` is one step, and the steps of `process` and of the threads come in any
order; a piece that was handed over may be through before `process` counts the next one.

The buffer of a request is in memory, so an `ssize_t` can count its bytes, and a transfer
returns a negative value or no more bytes than it was asked for.
-/

namespace HDCS

open Lib SimpleBlockCacher

/-- The range that is asked for, and the size of the objects. -/
structure CacherRequest.Config where
  objectSize : Nat
  offset : Nat
  length : Nat
  objectSize_pos : 0 < objectSize
  length_pos : 0 < length
  length_lt : length < 2 ^ 63

inductive CacherRequest.Phase where
  /-- At `while(left)`. -/
  | loop
  /-- After `uncomplete_count_inc`, with a piece of this length. -/
  | counted (length : Nat)
  /-- After `set_submit_complete`. -/
  | submitted (length : Nat)
  deriving DecidableEq

/-- How far a piece is that was handed over. -/
inductive CacherRequest.Piece where
  | pending
  /-- After `update_status(ret)`. -/
  | reported (ret : Int)
  /-- After `may_complete`. -/
  | finished (ret : Int)
  deriving DecidableEq

structure CacherRequest where
  phase : CacherRequest.Phase
  left : Nat
  offset : Nat
  offsetByData : Nat
  requestStatus : Int
  submitComplete : Bool
  /-- The pieces that were handed over. -/
  ops : List (Op × CacherRequest.Piece)
  /-- The calls of `comp->complete`. -/
  completions : List Int
  /-- The `Request` was used after one of them. -/
  usedAfter : Bool
  /-- A `uint64_t`. -/
  uncompleteCount : Nat

namespace CacherRequest

/-- `aio_read` or `aio_write` has made the request, and `process` takes it. -/
def start (cfg : Config) : CacherRequest :=
  { phase := .loop, left := cfg.length, offset := cfg.offset, offsetByData := 0,
    requestStatus := 0, submitComplete := false, ops := [], completions := [],
    usedAfter := false, uncompleteCount := 0 }

def use (s : CacherRequest) : CacherRequest :=
  { s with usedAfter := s.usedAfter || !s.completions.isEmpty }

def uncompleteCountInc (s : CacherRequest) : CacherRequest :=
  { s.use with uncompleteCount := incr64 s.uncompleteCount }

def setSubmitComplete (s : CacherRequest) : CacherRequest := { s.use with submitComplete := true }

def updateStatus (data : Int) (s : CacherRequest) : CacherRequest :=
  if data < 0 then { s.use with requestStatus := data }
  else if 0 ≤ s.requestStatus then
    { s.use with requestStatus := Int.bmod (s.requestStatus + data) (2 ^ 64) }
  else s.use

def mayComplete (s : CacherRequest) : CacherRequest :=
  { s.use with
    uncompleteCount := decr64 s.uncompleteCount
    completions :=
      if s.submitComplete = true ∧ decr64 s.uncompleteCount = 0 then
        s.completions ++ [s.requestStatus]
      else s.completions }

def handOver (length : Nat) (s : CacherRequest) : CacherRequest :=
  { s with
    phase := .loop
    offset := s.offset + length
    offsetByData := s.offsetByData + length
    ops := s.ops ++ [(⟨s.offset, length, s.offsetByData⟩, .pending)] }

def setPiece (i : Nat) (op : Op) (p : Piece) (s : CacherRequest) : CacherRequest :=
  { s with ops := s.ops.set i (op, p) }

/-- One step, of `process` or of the thread that has a piece. -/
inductive Act where
  | uncompleteCountInc
  | setSubmitComplete
  | handOver
  | updateStatus (i : Nat) (ret : Int)
  | mayComplete (i : Nat)

def step (objectSize : Nat) (s : CacherRequest) : Act → Option CacherRequest
  | .uncompleteCountInc =>
    if s.phase = .loop ∧ s.left ≠ 0 then
      let length := lengthByEntry objectSize s.offset s.left
      some { s.uncompleteCountInc with phase := .counted length, left := s.left - length }
    else none
  | .setSubmitComplete =>
    match s.phase with
    | .counted length =>
      if s.left = 0 then some { s.setSubmitComplete with phase := .submitted length } else none
    | _ => none
  | .handOver =>
    match s.phase with
    | .counted length => if s.left = 0 then none else some (s.handOver length)
    | .submitted length => some (s.handOver length)
    | .loop => none
  | .updateStatus i ret =>
    match s.ops[i]? with
    | some (op, .pending) =>
      if ret ≤ op.length then some ((s.updateStatus ret).setPiece i op (.reported ret))
      else none
    | _ => none
  | .mayComplete i =>
    match s.ops[i]? with
    | some (op, .reported ret) => some (s.mayComplete.setPiece i op (.finished ret))
    | _ => none

inductive Stepped (objectSize : Nat) (s : CacherRequest) : Act → CacherRequest → Prop where
  | uncompleteCountInc : s.phase = .loop → s.left ≠ 0 →
      Stepped objectSize s .uncompleteCountInc
        { s.uncompleteCountInc with
          phase := .counted (lengthByEntry objectSize s.offset s.left)
          left := s.left - lengthByEntry objectSize s.offset s.left }
  | setSubmitComplete {length : Nat} : s.phase = .counted length → s.left = 0 →
      Stepped objectSize s .setSubmitComplete
        { s.setSubmitComplete with phase := .submitted length }
  | handOver {length : Nat} :
      (s.phase = .counted length ∧ s.left ≠ 0 ∨ s.phase = .submitted length) →
      Stepped objectSize s .handOver (s.handOver length)
  | updateStatus {i : Nat} {op : Op} {ret : Int} : s.ops[i]? = some (op, .pending) →
      ret ≤ op.length →
      Stepped objectSize s (.updateStatus i ret)
        ((s.updateStatus ret).setPiece i op (.reported ret))
  | mayComplete {i : Nat} {op : Op} {ret : Int} : s.ops[i]? = some (op, .reported ret) →
      Stepped objectSize s (.mayComplete i) (s.mayComplete.setPiece i op (.finished ret))

theorem step_cases {objectSize : Nat} {s s' : CacherRequest} {a : Act}
    (h : s.step objectSize a = some s') : Stepped objectSize s a s' := by
  cases a with
  | uncompleteCountInc =>
    obtain ⟨⟨hphase, hleft⟩, hs⟩ := Option.ite_none_right_eq_some.mp h
    cases hs
    exact .uncompleteCountInc hphase hleft
  | setSubmitComplete =>
    rw [step] at h
    split at h
    · rename_i hphase
      obtain ⟨hleft, hs⟩ := Option.ite_none_right_eq_some.mp h
      cases hs
      exact .setSubmitComplete hphase hleft
    · cases h
  | handOver =>
    rw [step] at h
    split at h
    · rename_i hphase
      obtain ⟨hleft, hs⟩ := Option.ite_none_left_eq_some.mp h
      cases hs
      exact .handOver (Or.inl ⟨hphase, hleft⟩)
    · rename_i hphase
      cases h
      exact .handOver (Or.inr hphase)
    · cases h
  | updateStatus i ret =>
    rw [step] at h
    split at h
    · rename_i hop
      obtain ⟨hret, hs⟩ := Option.ite_none_right_eq_some.mp h
      cases hs
      exact .updateStatus hop hret
    · cases h
  | mayComplete i =>
    rw [step] at h
    split at h
    · rename_i hop
      cases h
      exact .mayComplete hop
    · cases h

end CacherRequest

end HDCS
