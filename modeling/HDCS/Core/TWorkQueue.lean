import HDCS.Lib.Machine

/-!
# `TWorkQueue`

`tq.h`: the threads behind `hdcs_op_threads`, from `add_task` to the destructor. What
happens under `q_lock` is one step, and everything else may come in between: the call of
a task, `notify_one` after a task is in the queue, `notify_all` after `stop` is set.

A thread that sleeps in `cond.wait` is woken up by one of the two, or by nobody in
particular. What a task does is not looked at, and a task is known by how many tasks
were accepted before it.
-/

namespace HDCS

/-- Where a thread of the pool is. -/
inductive TWorkQueue.Thread where
  /-- Before its locked section: in a new round of the loop, or woken up. -/
  | ready
  /-- Asleep in `cond.wait`. -/
  | waiting
  /-- It has moved a task out of the queue, and has not called it. -/
  | holding (task : Nat)
  /-- In `task()`. -/
  | running (task : Nat)
  | returned
  deriving DecidableEq

structure TWorkQueue where
  stop : Bool
  jobQueue : List Nat
  threads : List TWorkQueue.Thread
  /-- How many tasks `add_task` has accepted. -/
  accepted : Nat
  /-- The calls of `add_task` that are before their `notify_one`. -/
  notifies : Nat
  /-- The destructor is before its `notify_all`. -/
  notifiesAll : Bool
  /-- The tasks that were taken off the queue, in that order. -/
  taken : List Nat
  /-- The tasks that were called, in that order. -/
  called : List Nat

namespace TWorkQueue

/-- The constructor, with so many threads. -/
def start (thdCnt : Nat) : TWorkQueue :=
  { stop := false, jobQueue := [], threads := List.replicate thdCnt .ready, accepted := 0,
    notifies := 0, notifiesAll := false, taken := [], called := [] }

/-- The locked section of `add_task`. -/
def addTask (s : TWorkQueue) : Except String TWorkQueue :=
  if s.stop then .error "add_task on stopped WorkQueue"
  else .ok { s with
    jobQueue := s.jobQueue ++ [s.accepted]
    accepted := s.accepted + 1
    notifies := s.notifies + 1 }

def setThread (w : Nat) (v : Thread) (s : TWorkQueue) : TWorkQueue :=
  { s with threads := s.threads.set w v }

/-- The locked section of a thread. It goes to sleep, returns or takes the first task. -/
def lockedSection (w : Nat) (s : TWorkQueue) : TWorkQueue :=
  match s.stop, s.jobQueue with
  | false, [] => s.setThread w .waiting
  | true, [] => s.setThread w .returned
  | _, task :: rest =>
    { s with jobQueue := rest, taken := s.taken ++ [task] }.setThread w (.holding task)

def Thread.wake : Thread → Thread
  | .waiting => .ready
  | v => v

inductive Act where
  /-- A call of `add_task`, up to the end of its locked section. -/
  | addTask
  /-- `notify_one`: it wakes up this thread, or none if none is asleep. -/
  | notifyOne (w : Option Nat)
  /-- The locked section of the destructor. -/
  | setStop
  | notifyAll
  | lockedSection (w : Nat)
  | call (w : Nat)
  /-- `task()` returns. -/
  | finish (w : Nat)
  /-- A thread wakes up although nobody has notified it. -/
  | wakeUp (w : Nat)

def step (s : TWorkQueue) : Act → Option TWorkQueue
  | .addTask =>
    match s.addTask with
    | .ok s' => some s'
    | .error _ => some s
  | .notifyOne (some w) =>
    if 0 < s.notifies ∧ s.threads[w]? = some .waiting then
      some { s with notifies := s.notifies - 1, threads := s.threads.set w .ready }
    else none
  | .notifyOne none =>
    if 0 < s.notifies ∧ .waiting ∉ s.threads then some { s with notifies := s.notifies - 1 }
    else none
  | .setStop => if s.stop then none else some { s with stop := true, notifiesAll := true }
  | .notifyAll =>
    if s.notifiesAll then
      some { s with notifiesAll := false, threads := s.threads.map Thread.wake }
    else none
  | .lockedSection w => if s.threads[w]? = some .ready then some (s.lockedSection w) else none
  | .call w =>
    match s.threads[w]? with
    | some (.holding task) =>
      some ({ s with called := s.called ++ [task] }.setThread w (.running task))
    | _ => none
  | .finish w =>
    match s.threads[w]? with
    | some (.running _) => some (s.setThread w .ready)
    | _ => none
  | .wakeUp w =>
    if s.threads[w]? = some .waiting then some (s.setThread w .ready) else none

inductive Stepped (s : TWorkQueue) : Act → TWorkQueue → Prop where
  | accept : s.stop = false →
      Stepped s .addTask { s with
        jobQueue := s.jobQueue ++ [s.accepted]
        accepted := s.accepted + 1
        notifies := s.notifies + 1 }
  | throw : s.stop = true → Stepped s .addTask s
  | notify {w : Nat} : 0 < s.notifies → s.threads[w]? = some .waiting →
      Stepped s (.notifyOne (some w))
        { s with notifies := s.notifies - 1, threads := s.threads.set w .ready }
  | notifyNobody : 0 < s.notifies → .waiting ∉ s.threads →
      Stepped s (.notifyOne none) { s with notifies := s.notifies - 1 }
  | setStop : s.stop = false → Stepped s .setStop { s with stop := true, notifiesAll := true }
  | notifyAll : s.notifiesAll = true →
      Stepped s .notifyAll { s with notifiesAll := false, threads := s.threads.map Thread.wake }
  | wait {w : Nat} : s.threads[w]? = some .ready → s.stop = false → s.jobQueue = [] →
      Stepped s (.lockedSection w) (s.setThread w .waiting)
  | leave {w : Nat} : s.threads[w]? = some .ready → s.stop = true → s.jobQueue = [] →
      Stepped s (.lockedSection w) (s.setThread w .returned)
  | take {w task : Nat} {rest : List Nat} : s.threads[w]? = some .ready →
      s.jobQueue = task :: rest →
      Stepped s (.lockedSection w) ({ s with
        jobQueue := rest, taken := s.taken ++ [task] }.setThread w (.holding task))
  | call {w task : Nat} : s.threads[w]? = some (.holding task) →
      Stepped s (.call w) ({ s with called := s.called ++ [task] }.setThread w (.running task))
  | finish {w task : Nat} : s.threads[w]? = some (.running task) →
      Stepped s (.finish w) (s.setThread w .ready)
  | wakeUp {w : Nat} : s.threads[w]? = some .waiting →
      Stepped s (.wakeUp w) (s.setThread w .ready)

theorem step_cases {s s' : TWorkQueue} {a : Act} (h : s.step a = some s') : Stepped s a s' := by
  cases a with
  | addTask =>
    rw [step, TWorkQueue.addTask] at h
    by_cases hstop : s.stop = true
    · rw [if_pos hstop] at h
      cases h
      exact .throw hstop
    · rw [if_neg hstop] at h
      cases h
      exact .accept (Bool.not_eq_true _ ▸ hstop)
  | notifyOne w =>
    cases w with
    | some w =>
      obtain ⟨⟨hpos, hw⟩, hs⟩ := Option.ite_none_right_eq_some.mp h
      cases hs
      exact .notify hpos hw
    | none =>
      obtain ⟨⟨hpos, hnone⟩, hs⟩ := Option.ite_none_right_eq_some.mp h
      cases hs
      exact .notifyNobody hpos hnone
  | setStop =>
    obtain ⟨hstop, hs⟩ := Option.ite_none_left_eq_some.mp h
    cases hs
    exact .setStop (Bool.not_eq_true _ ▸ hstop)
  | notifyAll =>
    obtain ⟨hall, hs⟩ := Option.ite_none_right_eq_some.mp h
    cases hs
    exact .notifyAll hall
  | lockedSection w =>
    obtain ⟨hw, hs⟩ := Option.ite_none_right_eq_some.mp h
    cases hs
    unfold TWorkQueue.lockedSection
    split
    · rename_i hstop hqueue
      exact .wait hw hstop hqueue
    · rename_i hstop hqueue
      exact .leave hw hstop hqueue
    · rename_i hqueue
      exact .take hw hqueue
  | call w | finish w =>
    simp only [step] at h
    split at h
    · cases h
      constructor
      assumption
    · cases h
  | wakeUp w =>
    obtain ⟨hw, hs⟩ := Option.ite_none_right_eq_some.mp h
    cases hs
    exact .wakeUp hw

end TWorkQueue

end HDCS
