import HDCS.Core.CacherQueue
import HDCS.Lib.Counting
import HDCS.Proof.CacherChain

/-!
# Every piece is made once, and in order

An entry is in one of three situations (`EntrySound`): nothing waits and nobody is there; there is a
job for it; or one thread works on it. So what was put into the queue is what was made, then what
that thread has in its hands, and then what still waits. A piece that waits has somebody who will
look at it, since a thread takes back `process_inflight` only with nothing in the queue, and under
the lock.
-/

namespace HDCS.Proof

open Lib Lib.Machine CacherQueue CacherChain Function List

variable {requests : Nat → Req} {s s' : CacherQueue} {a : Act} {e w n : Nat} {p : HandlePhase}
  {ps : List HandlePhase} {entry : CacheEntry}

/-! ## One entry -/

/-- The pieces that a call has taken and not made. -/
def handOf : HandlePhase → List PendingOp
  | .making chain => chain.map (·.1)
  | _ => []

def CountsOnPiece : HandlePhase → Prop
  | .making _ => False
  | _ => True

inductive EntrySound (entry : CacheEntry) : Nat → List HandlePhase → Prop where
  | quiet (hflag : entry.processInflight = false) (hnil : entry.pendingReq = [])
      (hmade : entry.made.map (·.1) = entry.accepted) : EntrySound entry 0 []
  | queued (hflag : entry.processInflight = true) (hne : entry.pendingReq ≠ [])
      (horder : entry.made.map (·.1) ++ entry.pendingReq = entry.accepted) : EntrySound entry 1 []
  | handled {p : HandlePhase} (hflag : entry.processInflight = true)
      (hne : CountsOnPiece p → entry.pendingReq ≠ [])
      (horder : entry.made.map (·.1) ++ (handOf p ++ entry.pendingReq) = entry.accepted) :
      EntrySound entry 0 [p]

theorem EntrySound.look (hflag : entry.processInflight = true)
    (horder : entry.made.map (·.1) ++ entry.pendingReq = entry.accepted) :
    EntrySound entry.look.1 0 entry.look.2.toList := by
  unfold CacheEntry.look
  split
  · next hlen => exact .handled hflag (fun _ hnil => hlen (by rw [hnil]; rfl)) horder
  · next hlen =>
      have hnil : entry.pendingReq = [] := length_eq_zero_iff.mp (not_not.mp hlen)
      rw [hnil, append_nil] at horder
      exact .quiet rfl hnil horder

theorem EntrySound.handle (requests : Nat → Req) (h : EntrySound entry 0 [p]) :
    EntrySound (entry.handle requests p).1 0 (entry.handle requests p).2.toList := by
  cases h with
  | handled hflag hne horder =>
    cases p with
    | first => exact .look hflag horder
    | taking =>
      refine .handled hflag False.elim ?_
      show entry.made.map (·.1) ++ ((hinted requests (reqChain entry.pendingReq)).map (·.1)
        ++ entry.pendingReq.drop (entry.pendingReq.length % 2 ^ 16)) = entry.accepted
      rw [map_fst_hinted, reqChain, take_append_drop]
      exact horder
    | making chain =>
      cases chain with
      | nil => exact .look hflag horder
      | cons x chain =>
        refine .handled hflag False.elim ?_
        show (entry.made ++ [x]).map (·.1) ++ (chain.map (·.1) ++ entry.pendingReq) = entry.accepted
        rw [← horder, map_append, append_assoc]
        rfl

theorem EntrySound.pend (h : EntrySound entry n ps) (op : PendingOp)
    (hflag : entry.processInflight = true) : EntrySound (entry.pendRequest op) n ps := by
  have hne : (entry.pendRequest op).pendingReq ≠ [] :=
    append_ne_nil_of_right_ne_nil _ (cons_ne_nil _ _)
  cases h with
  | quiet hflag' hnil hmade => cases hflag.symm.trans hflag'
  | queued _ _ horder =>
    refine .queued hflag hne ?_
    rw [CacheEntry.pendRequest, ← horder, append_assoc]
  | handled _ _ horder =>
    refine .handled hflag (fun _ => hne) ?_
    rw [CacheEntry.pendRequest, ← horder]
    simp only [append_assoc]

theorem EntrySound.schedule (h : EntrySound entry n ps) (op : PendingOp)
    (hflag : entry.processInflight = false) :
    EntrySound { entry.pendRequest op with processInflight := true } (n + 1) ps := by
  cases h with
  | quiet _ hnil hmade =>
    refine .queued rfl (append_ne_nil_of_right_ne_nil _ (cons_ne_nil _ _)) ?_
    rw [CacheEntry.pendRequest, hnil, ← hmade]
    rfl
  | queued hflag' | handled hflag' => cases hflag.symm.trans hflag'

/-! ## What every run keeps -/

def phaseAt (e : Nat) : Option (Nat × HandlePhase) → Option HandlePhase
  | none => none
  | some (e', p) => if e' = e then some p else none

theorem phaseAt_self : phaseAt e (some (e, p)) = some p := if_pos rfl

theorem phaseAt_of_ne {e' : Nat} (h : e' ≠ e) : phaseAt e (some (e', p)) = none := if_neg h

/-- The threads at an entry. -/
def phasesAt (s : CacherQueue) (e : Nat) : List HandlePhase := s.threads.filterMap (phaseAt e)

def QueueSound (s : CacherQueue) : Prop :=
  ∀ e, EntrySound (s.entries e) (s.jobs.count e) (phasesAt s e)

theorem queueSound_start (threads : Nat) : QueueSound (start threads) := by
  intro e
  have hnone : phasesAt (start threads) e = [] := by
    refine filterMap_eq_nil_iff.mpr fun v hv => ?_
    rw [eq_of_mem_replicate hv]
    rfl
  rw [hnone]
  exact .quiet rfl rfl rfl

theorem QueueSound.alone (h : QueueSound s) {before after : List (Option (Nat × HandlePhase))}
    (hsplit : s.threads = before ++ some (e, p) :: after) :
    s.jobs.count e = 0 ∧ EntrySound (s.entries e) 0 [p]
      ∧ before.filterMap (phaseAt e) = [] ∧ after.filterMap (phaseAt e) = [] := by
  have hsound := h e
  rw [phasesAt, hsplit, filterMap_append, filterMap_cons_some phaseAt_self] at hsound
  generalize s.jobs.count e = n at hsound ⊢
  generalize hps : before.filterMap (phaseAt e) ++ p :: after.filterMap (phaseAt e) = ps at hsound
  cases hsound with
  | quiet | queued => exact absurd hps (by simp)
  | handled hflag hne horder =>
    obtain ⟨hbefore, heq⟩ := append_eq_singleton_iff.mp hps |>.resolve_right (by simp)
    obtain ⟨rfl, hafter⟩ := List.cons.inj heq
    exact ⟨rfl, .handled hflag hne horder, hbefore, hafter⟩

theorem QueueSound.map (h : QueueSound s) (e : Nat) (op : PendingOp) :
    QueueSound (s.mapRequest e op) := by
  unfold mapRequest
  dsimp only
  split
  · next hflag =>
      exact (forall_update_iff s.entries
        (p := fun e' x => EntrySound x (s.jobs.count e') (phasesAt s e'))).mpr
          ⟨(h e).pend op hflag, fun e' _ => h e'⟩
  · next hflag =>
      refine (forall_update_iff s.entries
        (p := fun e' x => EntrySound x ((s.jobs ++ [e]).count e') (phasesAt s e'))).mpr
          ⟨?_, fun e' hne => ?_⟩
      · rw [count_append, count_singleton_self]
        exact (h e).schedule op (Bool.eq_false_iff.mpr hflag)
      · rw [count_append, List.count_eq_zero.mpr fun hmem => hne (mem_singleton.mp hmem)]
        exact h e'

theorem QueueSound.begin {jobs : List Nat} (h : QueueSound s) (hw : s.threads[w]? = some none)
    (hjobs : s.jobs = e :: jobs) :
    QueueSound { s with jobs, threads := s.threads.set w (some (e, .first)) } := by
  obtain ⟨before, after, hsplit, hset⟩ := exists_append_of_getElem? hw
  intro e'
  have hsound := h e'
  rw [phasesAt, hsplit, filterMap_append, filterMap_cons_none rfl, hjobs] at hsound
  show EntrySound (s.entries e') (jobs.count e') ((s.threads.set w _).filterMap (phaseAt e'))
  rw [hset, filterMap_append]
  by_cases heq : e = e'
  · subst heq
    rw [count_cons_self, ← filterMap_append] at hsound
    rw [filterMap_cons_some phaseAt_self]
    generalize jobs.count e = n at hsound ⊢
    generalize hps : (before ++ after).filterMap (phaseAt e) = ps at hsound
    cases hsound with
    | queued hflag hne horder =>
      rw [filterMap_append] at hps
      obtain ⟨hbefore, hafter⟩ := append_eq_nil_iff.mp hps
      rw [hbefore, hafter]
      exact .handled hflag (fun _ => hne) horder
  · rw [count_cons_of_ne heq] at hsound
    rw [filterMap_cons_none (phaseAt_of_ne heq)]
    exact hsound

theorem QueueSound.handle (h : QueueSound s) (hw : s.threads[w]? = some (some (e, p)))
    {x : CacheEntry × Option HandlePhase} (hx : (s.entries e).handle requests p = x) :
    QueueSound { s with
      entries := update s.entries e x.1
      threads := s.threads.set w (x.2.map (e, ·)) } := by
  obtain ⟨before, after, hsplit, hset⟩ := exists_append_of_getElem? hw
  obtain ⟨hjobs, hentry, hbefore, hafter⟩ := h.alone hsplit
  refine (forall_update_iff s.entries (p := fun e' y => EntrySound y (s.jobs.count e')
    ((s.threads.set w (x.2.map (e, ·))).filterMap (phaseAt e')))).mpr ⟨?_, fun e' hne => ?_⟩
  · have hnext := hentry.handle requests
    rw [hx] at hnext
    rw [hset, filterMap_append, hjobs, hbefore]
    cases hq : x.2 with
    | none =>
      rw [Option.map_none, filterMap_cons_none rfl, hafter]
      rwa [hq] at hnext
    | some q =>
      rw [Option.map_some, filterMap_cons_some phaseAt_self, hafter]
      rwa [hq] at hnext
  · have hsound := h e'
    rw [phasesAt, hsplit, filterMap_append, filterMap_cons_none (phaseAt_of_ne hne.symm)] at hsound
    rw [hset, filterMap_append]
    cases x.2 with
    | none => rwa [Option.map_none, filterMap_cons_none rfl]
    | some q => rwa [Option.map_some, filterMap_cons_none (phaseAt_of_ne hne.symm)]

/-- **Every step keeps the queues as they should be.** -/
theorem queueSound_step (h : QueueSound s) (hs : s.step requests a = some s') : QueueSound s' := by
  cases a with
  | map e op =>
    cases hs
    exact h.map e op
  | begin w =>
    rw [step] at hs
    split at hs
    · cases hs
      exact h.begin (by assumption) (by assumption)
    · cases hs
  | handle w =>
    rw [step] at hs
    split at hs
    · cases hs
      exact h.handle (by assumption) rfl
    · cases hs

theorem queueSound_reachable {threads : Nat}
    (h : Reachable (step requests) Unrestricted (start threads) s) : QueueSound s :=
  h.invariant (queueSound_start threads) fun _ _ _ h _ hs => queueSound_step h hs

/--
**Every piece is made once, and in order**, however the threads take turns. At most one of them is
at an entry; what was made is a first part of what was put into the queue, and the rest is in the
hands of that thread or still in the queue; whatever waits has a job or a thread; and the look
without the lock always finds something, so `process_inflight` is taken back under the lock.
-/
theorem cacherQueue_ordered {threads : Nat}
    (h : Reachable (step requests) Unrestricted (start threads) s) (e : Nat) :
    s.jobs.count e + (phasesAt s e).length ≤ 1
      ∧ (s.entries e).made.map (·.1) ++ ((phasesAt s e).flatMap handOf ++ (s.entries e).pendingReq)
        = (s.entries e).accepted
      ∧ ((s.entries e).pendingReq ≠ [] → e ∈ s.jobs ∨ phasesAt s e ≠ [])
      ∧ (.first ∈ phasesAt s e → (s.entries e).pendingReq ≠ []) := by
  have hsound := queueSound_reachable h e
  rw [← count_pos_iff]
  generalize s.jobs.count e = n, phasesAt s e = ps at hsound ⊢
  cases hsound with
  | quiet hflag hnil hmade => simp [hnil, hmade]
  | queued hflag hne horder => simpa using horder
  | handled hflag hne horder =>
    refine ⟨le_rfl, ?_, fun _ => .inr (cons_ne_nil _ _), fun hfirst => ?_⟩
    · rw [flatMap_singleton]
      exact horder
    · rw [← mem_singleton.mp hfirst] at hne
      exact hne trivial

def firstPiece : PendingOp := ⟨⟨0, 8, 0⟩, 0⟩

/-- A second piece has come while one of two threads is at work on the first. -/
theorem cacherQueue_ordered_secondPiece : ∃ s : CacherQueue, (s.entries 0).pendingReq ≠ []
    ∧ (0 ∈ s.jobs ∨ phasesAt s 0 ≠ []) := by
  have hrun : (run (step fun _ => ⟨.write, 0⟩) Unrestricted (start 2) [.map 0 firstPiece, .begin 1,
      .handle 1, .handle 1, .map 0 firstPiece, .handle 1]).map
        (fun s => (s.entries 0).pendingReq.length == 1) = some true := rfl
  obtain ⟨s, hs, hlen⟩ := Reachable.of_run_test hrun
  have hne : (s.entries 0).pendingReq ≠ [] := fun hnil => by simp [hnil] at hlen
  exact ⟨s, hne, (cacherQueue_ordered hs 0).2.2.1 hne⟩

/-! ## When the threads come to rest -/

/-- A step of a thread of `scache_op_threads`. -/
def handles : Act → Bool
  | .map _ _ => false
  | _ => true

theorem QueueSound.made_of_stuck (h : QueueSound s) (hthreads : 0 < s.threads.length)
    (hstuck : ∀ a, handles a = true → s.step requests a = none) (e : Nat) :
    (s.entries e).made.map (·.1) = (s.entries e).accepted := by
  have hidle : ∀ (w : Nat) (t : Option (Nat × HandlePhase)), s.threads[w]? = some t → t = none := by
    intro w t hw
    have hhandle := hstuck (.handle w) rfl
    simp only [step, hw] at hhandle
    cases t with
    | none => rfl
    | some x => cases hhandle
  have hjobs : s.jobs = [] := by
    have hw : s.threads[0]? = some s.threads[0] := getElem?_eq_getElem hthreads
    have hbegin := hstuck (.begin 0) rfl
    simp only [step, hw, hidle 0 _ hw] at hbegin
    cases hjobs : s.jobs with
    | nil => rfl
    | cons e jobs =>
      rw [hjobs] at hbegin
      cases hbegin
  have hnobody : phasesAt s e = [] := by
    refine filterMap_eq_nil_iff.mpr fun t ht => ?_
    obtain ⟨w, hw⟩ := mem_iff_getElem?.mp ht
    rw [hidle w t hw]
    rfl
  have hsound := h e
  rw [hjobs, hnobody] at hsound
  cases hsound with
  | quiet hflag hnil hmade => exact hmade

theorem length_threads_queueStep (hs : s.step requests a = some s') :
    s'.threads.length = s.threads.length := by
  cases a with
  | map e op =>
    rw [← Option.some.inj hs, mapRequest]
    split <;> rfl
  | begin w | handle w =>
    rw [step] at hs
    split at hs
    · cases hs
      exact length_set
    · cases hs

/--
**Nothing is left behind**: where no thread can go on, every piece that was put into a queue was
made, so the hand-over of an entry is never missed.
-/
theorem cacherQueue_at_rest {threads : Nat} (hthreads : 0 < threads)
    (h : Reachable (step requests) Unrestricted (start threads) s)
    (hrest : ∀ a, handles a = true → s.step requests a = none) (e : Nat) :
    (s.entries e).made.map (·.1) = (s.entries e).accepted := by
  have hlen : s.threads.length = threads := h.invariant (I := (·.threads.length = threads))
    length_replicate fun _ _ _ h _ hs => (length_threads_queueStep hs).trans h
  exact (queueSound_reachable h).made_of_stuck (hlen ▸ hthreads) hrest e

/-- One thread makes two pieces, and is through. -/
theorem cacherQueue_at_rest_twoPieces : ∃ s : CacherQueue, (s.entries 0).accepted.length = 2
    ∧ (s.entries 0).made.map (·.1) = (s.entries 0).accepted := by
  have hrun : (run (step fun _ => ⟨.write, 0⟩) Unrestricted (start 1) ([.map 0 firstPiece,
      .map 0 firstPiece, .begin 0] ++ List.replicate 5 (.handle 0))).map (fun s =>
        s.jobs.isEmpty && s.threads.all Option.isNone && (s.entries 0).accepted.length == 2)
      = some true := rfl
  obtain ⟨s, hs, htest⟩ := Reachable.of_run_test hrun
  simp only [Bool.and_eq_true, List.isEmpty_iff, all_eq_true, beq_iff_eq] at htest
  obtain ⟨⟨hjobs, hidle⟩, hlen⟩ := htest
  refine ⟨s, hlen, cacherQueue_at_rest Nat.one_pos hs (fun a ha => ?_) 0⟩
  cases a with
  | map e op => cases ha
  | begin w => simp [step, hjobs]
  | handle w =>
    rw [step]
    split
    · next hw => cases hidle _ (mem_of_getElem? hw)
    · rfl

end HDCS.Proof
