import HDCS.Core.ReplicatedRequest
import HDCS.Lib.Counting
import HDCS.Lib.Machine
import HDCS.Proof.Coalescing
import HDCS.Proof.Splitting
import Mathlib.Data.List.Perm.Subperm

/-!
# The batch of a WRITE

Its count starts at the number of blocks, reduced to eight bits. As long as that
loses nothing, a run of the batch has three phases: the workers gather
(`Gathering`), the last of them submits (`Submitting`), and the batch has been
submitted (`Submitted`). The count is zero from the second phase on, which is when
the others may go.

With more than 255 blocks the count comes to zero too early, and goes below
(`Passing`): only as many workers as it started with get past it.
-/

namespace HDCS.Proof

open Lib ReplicatedRequest Lib.Machine List

/-- The local writes succeed. -/
def StoreWorks {cfg : ReplicatedConfig} (_ : ReplicatedRequest cfg) : Act → Prop
  | .write _ ret => 0 ≤ ret
  | _ => True

instance {cfg : ReplicatedConfig} (s : ReplicatedRequest cfg) (a : Act) :
    Decidable (StoreWorks s a) :=
  match a with
  | .write _ ret => inferInstanceAs (Decidable (0 ≤ ret))
  | .insert _ | .test _ | .decrement _ | .message _ | .notify _ | .evaluate _ | .sleep _
  | .finish _ | .reply _ _ => .isTrue trivial

/-! ## Where a worker can be -/

def isPast : Worker → Bool
  | .preparing | .inserted | .tested => false
  | _ => true

def isEarly : Worker → Bool
  | .submitting _ _ | .returned | .finished => false
  | _ => true

def isLate : Worker → Bool
  | .preparing | .inserted | .tested | .submitting _ _ => false
  | _ => true

def isBack : Worker → Bool
  | .returned | .finished => true
  | _ => false

theorem isBack_wake (v : Worker) : isBack v.wake = isBack v := by cases v <;> rfl

theorem isPast_wake (v : Worker) : isPast v.wake = isPast v := by cases v <;> rfl

theorem isLate_wake (v : Worker) : isLate v.wake = isLate v := by cases v <;> rfl

theorem isLate_of_early {v : Worker} (he : isEarly v = true) (hp : isPast v = true) :
    isLate v = true := by
  cases v <;> simp_all [isEarly, isPast, isLate]

theorem map_notify {β : Type} {f : Worker → β} {l : List Worker} {w : Nat} {notifies : Bool}
    (hwake : ∀ v : Worker, f v.wake = f v) (hw : l[w]? = some (.submitting [] notifies))
    (hwait : f .waiting = f (.submitting [] notifies)) :
    ((if notifies then l.map Worker.wake else l).set w .waiting).map f = l.map f := by
  have hsame : (if notifies then l.map Worker.wake else l).map f = l.map f := by
    split
    · rw [map_map]
      exact map_congr_left fun v _ => hwake v
    · rfl
  rw [← hsame]
  refine map_set_eq (a := .submitting [] notifies) ?_ hwait
  split
  · rw [getElem?_map, hw]
    rfl
  · exact hw

theorem countP_notify {p : Worker → Bool} {l : List Worker} {w : Nat} {notifies : Bool}
    (hwake : ∀ v : Worker, p v.wake = p v) (hw : l[w]? = some (.submitting [] notifies))
    (hwait : p .waiting = p (.submitting [] notifies)) :
    ((if notifies then l.map Worker.wake else l).set w .waiting).countP p = l.countP p := by
  have hmap := congrArg (List.countP id) (map_notify hwake hw hwait)
  rw [countP_map, countP_map] at hmap
  exact hmap

/-! ## What is submitted -/

def messages (ops : List SubmitOp) : List (Segment × Nat) :=
  ops.filterMap fun
    | .message x replica => some (x, replica)
    | .write _ => none

def segments (ops : List SubmitOp) : List Segment :=
  ops.filterMap fun
    | .message _ _ => none
    | .write x => some x

theorem messages_submitRequest (replicas : Nat) (c : SegmentChain) :
    (messages (submitRequest replicas c)).length = replicas * c.length := by
  induction c with
  | nil => rfl
  | cons x c ih =>
    have hone : messages ((List.range replicas).map (SubmitOp.message x) ++ [.write x])
        = (List.range replicas).map fun replica => (x, replica) := by
      simp [messages, filterMap_map]
    have hcons : messages (submitRequest replicas (x :: c))
        = messages ((List.range replicas).map (SubmitOp.message x) ++ [.write x])
          ++ messages (submitRequest replicas c) := by
      simp only [submitRequest, flatMap_cons, messages, filterMap_append]
    rw [hcons, length_append, hone, ih, length_map, length_range,
      length_cons, Nat.mul_add, Nat.mul_one, Nat.add_comm]

theorem segments_submitRequest (replicas : Nat) (c : SegmentChain) :
    segments (submitRequest replicas c) = c := by
  induction c with
  | nil => rfl
  | cons x c ih =>
    have hone : segments ((List.range replicas).map (SubmitOp.message x) ++ [.write x])
        = [x] := by
      simp [segments, filterMap_map]
    have hcons : segments (submitRequest replicas (x :: c))
        = segments ((List.range replicas).map (SubmitOp.message x) ++ [.write x])
          ++ segments (submitRequest replicas c) := by
      simp only [submitRequest, flatMap_cons, segments, filterMap_append]
    rw [hcons, hone, ih, singleton_append]

/-! ## The phases -/

section Phases

variable {cfg : ReplicatedConfig} {s s' : ReplicatedRequest cfg}

def pastCount (s : ReplicatedRequest cfg) : Nat := s.workers.countP isPast

structure Gathering (s : ReplicatedRequest cfg) : Prop where
  count : s.sharedCount = cfg.blocks.length - pastCount s
  lt : pastCount s < cfg.blocks.length
  early : ∀ v ∈ s.workers, isEarly v = true
  sent : s.sent = []
  writes : s.writes = []

structure Submitting (s : ReplicatedRequest cfg) (w : Nat) (ops : List SubmitOp) : Prop where
  worker : s.workers[w]? = some (.submitting ops true)
  others : ∀ i v, i ≠ w → s.workers[i]? = some v → isLate v = true
  ops : ∃ done, submitRequest cfg.replicas s.chain = done ++ ops ∧ s.sent = messages done
    ∧ s.writes.map Prod.fst = segments done
  count : s.sharedCount = 0

structure Submitted (s : ReplicatedRequest cfg) : Prop where
  late : ∀ v ∈ s.workers, isLate v = true
  sent : s.sent = messages (submitRequest cfg.replicas s.chain)
  writes : s.writes.map Prod.fst = s.chain
  count : s.sharedCount = 0

def Phase (s : ReplicatedRequest cfg) : Prop :=
  Gathering s ∨ (∃ w ops, Submitting s w ops) ∨ Submitted s

theorem Phase.frame (h : Phase s) (hworkers : s'.workers = s.workers)
    (hchain : s'.chain = s.chain) (hcount : s'.sharedCount = s.sharedCount)
    (hsent : s'.sent = s.sent) (hwrites : s'.writes = s.writes) : Phase s' := by
  rcases h with h | ⟨w, ops, h⟩ | h
  · refine Or.inl ⟨?_, ?_, ?_, ?_, ?_⟩
    · unfold pastCount
      rw [hcount, hworkers]
      exact h.count
    · unfold pastCount
      rw [hworkers]
      exact h.lt
    · rw [hworkers]
      exact h.early
    · rw [hsent, h.sent]
    · rw [hwrites, h.writes]
  · refine Or.inr (Or.inl ⟨w, ops, ?_, ?_, ?_, ?_⟩)
    · rw [hworkers]
      exact h.worker
    · rw [hworkers]
      exact h.others
    · rw [hchain, hsent, hwrites]
      exact h.ops
    · rw [hcount, h.count]
  · refine Or.inr (Or.inr ⟨?_, ?_, ?_, ?_⟩)
    · rw [hworkers]
      exact h.late
    · rw [hsent, hchain, h.sent]
    · rw [hwrites, hchain, h.writes]
    · rw [hcount, h.count]

theorem Gathering.set {w : Nat} {v v' : Worker} {c : SegmentChain} (h : Gathering s)
    (hw : s.workers[w]? = some v) (hpast : isPast v' = isPast v) (hearly : isEarly v' = true) :
    Gathering (setWorker w v' ({ s with chain := c } : ReplicatedRequest cfg)) := by
  have hsame : pastCount (setWorker w v' ({ s with chain := c } : ReplicatedRequest cfg))
      = pastCount s := countP_set_eq isPast hw hpast
  constructor
  · rw [hsame]
    exact h.count
  · rw [hsame]
    exact h.lt
  · exact forall_mem_set h.early hearly
  · exact h.sent
  · exact h.writes

theorem Submitting.set {w i : Nat} {ops : List SubmitOp} {v' : Worker} (h : Submitting s w ops)
    (hi : i ≠ w) (hlate : isLate v' = true) : Submitting (s.setWorker i v') w ops := by
  constructor
  · exact (getElem?_set_ne hi).trans h.worker
  · intro j v hj hv
    by_cases hij : i = j
    · subst hij
      have hv' : (s.workers.set i v')[i]? = some v := hv
      rw [getElem?_set_self'] at hv'
      cases hold : s.workers[i]? with
      | none => rw [hold] at hv'; cases hv'
      | some x =>
        rw [hold] at hv'
        obtain rfl : v' = v := by simpa using hv'
        exact hlate
    · exact h.others j v hj ((getElem?_set_ne hij).symm.trans hv)
  · exact h.ops
  · exact h.count

theorem Submitted.set {i : Nat} {v' : Worker} (h : Submitted s) (hlate : isLate v' = true) :
    Submitted (s.setWorker i v') :=
  ⟨forall_mem_set h.late hlate, h.sent, h.writes, h.count⟩

theorem Submitting.eq_of_not_late {w i : Nat} {ops : List SubmitOp} {v : Worker}
    (h : Submitting s w ops) (hv : s.workers[i]? = some v) (hlate : isLate v = false) :
    i = w ∧ v = .submitting ops true := by
  by_cases hi : i = w
  · subst hi
    exact ⟨rfl, Option.some.inj (hv.symm.trans h.worker)⟩
  · rw [h.others i v hi hv] at hlate
    cases hlate

theorem Phase.gathering {w : Nat} {v : Worker} (h : Phase s) (hw : s.workers[w]? = some v)
    (hlate : isLate v = false) (hsub : ∀ ops notifies, v ≠ .submitting ops notifies) :
    Gathering s := by
  rcases h with h | ⟨w', ops, h⟩ | h
  · exact h
  · exact absurd (h.eq_of_not_late hw hlate).2 (hsub _ _)
  · rw [h.late v (mem_of_getElem? hw)] at hlate
    cases hlate

theorem Phase.submitting {w : Nat} {ops : List SubmitOp} {notifies : Bool} (h : Phase s)
    (hw : s.workers[w]? = some (.submitting ops notifies)) :
    notifies = true ∧ Submitting s w ops := by
  rcases h with h | ⟨w', ops', h⟩ | h
  · cases h.early _ (mem_of_getElem? hw)
  · obtain ⟨rfl, heq⟩ := h.eq_of_not_late hw rfl
    obtain ⟨rfl, rfl⟩ := Worker.submitting.inj heq
    exact ⟨rfl, h⟩
  · cases h.late _ (mem_of_getElem? hw)

theorem Phase.set {w : Nat} {v v' : Worker} (h : Phase s) (hw : s.workers[w]? = some v)
    (hlate : isLate v = true) (hlate' : isLate v' = true)
    (hearly : isEarly v = true → isEarly v' = true) : Phase (s.setWorker w v') := by
  rcases h with h | ⟨w', ops, h⟩ | h
  · have hpast : isPast v' = isPast v := by
      have himp : ∀ v, isLate v = true → isPast v = true := by
        intro v hv
        cases v <;> first | rfl | cases hv
      rw [himp v hlate, himp v' hlate']
    exact Or.inl (h.set (c := s.chain) hw hpast (hearly (h.early v (mem_of_getElem? hw))))
  · have hne : w ≠ w' := by
      rintro rfl
      rw [Option.some.inj (hw.symm.trans h.worker)] at hlate
      cases hlate
    exact Or.inr (Or.inl ⟨w', ops, h.set hne hlate'⟩)
  · exact Or.inr (Or.inr (h.set hlate'))

/-- **The last worker comes to the count.** -/
theorem Gathering.last {w : Nat} (h : Gathering s) (hlen : s.workers.length = cfg.blocks.length)
    (hw : s.workers[w]? = some .tested) (hcount : s.sharedCount = 1) :
    Submitting (setWorker w (.submitting (submitRequest cfg.replicas s.chain) true)
      ({ s with sharedCount := 0 } : ReplicatedRequest cfg)) w
      (submitRequest cfg.replicas s.chain) := by
  have hlt : w < s.workers.length := lt_of_getElem? hw
  constructor
  · exact getElem?_set_self hlt
  · intro i v hi hv
    have hv' : s.workers[i]? = some v := (getElem?_set_ne (Ne.symm hi)).symm.trans hv
    refine isLate_of_early (h.early v (mem_of_getElem? hv')) ?_
    -- with this worker, the count says that all are past it
    have hadd := countP_set_add isPast (.submitting (submitRequest cfg.replicas s.chain) true) hw
    have hall : (s.workers.set w (.submitting (submitRequest cfg.replicas s.chain) true)).countP
        isPast = (s.workers.set w
          (.submitting (submitRequest cfg.replicas s.chain) true)).length := by
      have hpast : s.sharedCount = cfg.blocks.length - pastCount s := h.count
      have hfalse : (isPast .tested).toNat = 0 := rfl
      have htrue : (isPast (.submitting (submitRequest cfg.replicas s.chain) true)).toNat = 1 := rfl
      rw [length_set, hlen]
      unfold pastCount at hpast
      omega
    exact countP_eq_length.mp hall v (mem_of_getElem? hv)
  · exact ⟨[], rfl, h.sent, by rw [show _ = s.writes from rfl, h.writes]; rfl⟩
  · rfl

theorem Gathering.decrement {w : Nat} (h : Gathering s) (hw : s.workers[w]? = some .tested)
    (hcount : s.sharedCount ≠ 1) :
    Gathering (setWorker w .waiting
      ({ s with sharedCount := s.sharedCount - 1 } : ReplicatedRequest cfg)) := by
  have hadd : pastCount (setWorker w .waiting
      ({ s with sharedCount := s.sharedCount - 1 } : ReplicatedRequest cfg)) + 0
      = pastCount s + 1 := countP_set_add isPast .waiting hw
  have hpast := h.count
  have hlt := h.lt
  constructor
  · show s.sharedCount - 1 = _
    omega
  · omega
  · exact forall_mem_set h.early rfl
  · exact h.sent
  · exact h.writes

theorem returned_of_finish {v : Worker} (hh : cfg.handsOver = true)
    (hv : v = .returned ∨ v = .preparing ∧ cfg.handsOver = false) : v = .returned := by
  rcases hv with hv | ⟨_, hnot⟩
  · exact hv
  · rw [hh] at hnot
    cases hnot

theorem Submitting.next {w : Nat} {op : SubmitOp} {ops : List SubmitOp}
    (h : Submitting s w (op :: ops))
    (hworkers : s'.workers = s.workers.set w (.submitting ops true))
    (hchain : s'.chain = s.chain) (hsent : s'.sent = s.sent ++ messages [op])
    (hwrites : s'.writes.map Prod.fst = s.writes.map Prod.fst ++ segments [op])
    (hcount : s'.sharedCount = s.sharedCount) : Submitting s' w ops := by
  obtain ⟨done, hops, hdoneSent, hdoneWrites⟩ := h.ops
  refine ⟨?_, ?_, ⟨done ++ [op], ?_, ?_, ?_⟩, hcount.trans h.count⟩
  · rw [hworkers]
    exact getElem?_set_self (lt_of_getElem? h.worker)
  · intro i v hi hv
    rw [hworkers, getElem?_set_ne (Ne.symm hi)] at hv
    exact h.others i v hi hv
  · rw [hchain, append_assoc]
    exact hops
  · rw [hsent, hdoneSent]
    exact filterMap_append.symm
  · rw [hwrites, hdoneWrites]
    exact filterMap_append.symm

theorem Submitting.notify {w : Nat} (h : Submitting s w [])
    (hworkers : s'.workers = (s.workers.map Worker.wake).set w .waiting)
    (hchain : s'.chain = s.chain) (hsent : s'.sent = s.sent) (hwrites : s'.writes = s.writes)
    (hcount : s'.sharedCount = s.sharedCount) : Submitted s' := by
  obtain ⟨done, hops, hdoneSent, hdoneWrites⟩ := h.ops
  rw [append_nil] at hops
  refine ⟨?_, ?_, ?_, hcount.trans h.count⟩
  · intro v hv
    rw [hworkers] at hv
    obtain ⟨i, hi⟩ := getElem?_of_mem hv
    by_cases hiw : i = w
    · subst hiw
      have hset := getElem?_set_self (l := s.workers.map Worker.wake) (a := .waiting)
        (by rw [length_map]; exact lt_of_getElem? h.worker)
      rw [← Option.some.inj (hset.symm.trans hi)]
      rfl
    · rw [getElem?_set_ne (Ne.symm hiw), getElem?_map] at hi
      obtain ⟨u, hu, rfl⟩ := Option.map_eq_some_iff.mp hi
      rw [isLate_wake]
      exact h.others i u hiw hu
  · rw [hsent, hdoneSent, hchain, hops]
  · rw [hwrites, hdoneWrites, hchain, ← hops, segments_submitRequest]

theorem Phase.pass {w : Nat} (h : Phase s) (hw : s.workers[w]? = some .waiting)
    (hcount : s.sharedCount = 0) : Phase (s.setWorker w .returned) := by
  refine Or.inr ?_
  rcases h with h | ⟨w', ops, h⟩ | h
  · have hpast := h.count
    have hlt := h.lt
    omega
  · have hne : w ≠ w' := by
      rintro rfl
      cases hw.symm.trans h.worker
    exact Or.inl ⟨w', ops, h.set hne rfl⟩
  · exact Or.inr (h.set rfl)

/-- **The phases follow each other.** -/
theorem phase_step {a : Act} (hh : cfg.handsOver = true)
    (hlen : s.workers.length = cfg.blocks.length) (h : Phase s) (hok : StoreWorks s a)
    (hs : Stepped s a s') : Phase s' := by
  cases hs with
  | insert hw _ _ => exact Or.inl ((h.gathering hw rfl (by simp)).set hw rfl rfl)
  | test hw _ => exact Or.inl ((h.gathering hw rfl (by simp)).set (c := s.chain) hw rfl rfl)
  | again hw hcount =>
    have hg := h.gathering hw rfl (by simp)
    have hpast := hg.count
    have hlt := hg.lt
    omega
  | decrement hw hcount => exact Or.inl ((h.gathering hw rfl (by simp)).decrement hw hcount)
  | @last w hw hcount =>
    exact Or.inr (Or.inl ⟨w, _, (h.gathering hw rfl (by simp)).last hlen hw hcount⟩)
  | @message w replica x ops notifies hw =>
    obtain ⟨rfl, hsub⟩ := h.submitting hw
    refine Or.inr (Or.inl ⟨w, ops, hsub.next rfl rfl rfl ?_ rfl⟩)
    exact (append_nil _).symm
  | @write w x ops notifies ret hw =>
    obtain ⟨rfl, hsub⟩ := h.submitting hw
    have hret : ¬ ret < 0 := Int.not_lt.mpr hok
    rw [if_neg hret]
    refine Or.inr (Or.inl ⟨w, ops, hsub.next rfl rfl ?_ map_append rfl⟩)
    exact (append_nil _).symm
  | @notify w notifies hw =>
    obtain ⟨rfl, hsub⟩ := h.submitting hw
    exact Or.inr (Or.inr (hsub.notify rfl rfl rfl rfl rfl))
  | pass hw hcount => exact h.pass hw hcount
  | wait hw _ | sleep hw => exact h.set hw rfl rfl (fun _ => rfl)
  | @finish w v hw hv =>
    obtain rfl := returned_of_finish hh hv
    have hset : Phase (s.setWorker w .finished) :=
      h.set hw rfl rfl (fun hc => absurd hc (by simp [isEarly]))
    obtain ⟨_, _, _, heq⟩ := completeBlock_eq (s.setWorker w .finished)
    rw [heq]
    exact hset.frame rfl rfl rfl rfl rfl
  | @reply i m ret _ =>
    obtain ⟨_, _, _, heq⟩ := complete_eq ⟨.replica, ret⟩ _
    rw [heq]
    exact h.frame rfl rfl rfl rfl rfl

end Phases

/-! ## Runs -/

section Runs

variable {cfg : ReplicatedConfig} {s s' : ReplicatedRequest cfg}
  {ok : ReplicatedRequest cfg → Act → Prop}

theorem length_blocks (cfg : ReplicatedConfig) :
    cfg.blocks.length = sharedCount cfg.blockSize cfg.request.offset cfg.request.length := by
  rw [ReplicatedConfig.blocks, length_map]
  exact (cut_createBlockRequests cfg.blockSize_pos 0 cfg.length_pos).length cfg.blockSize_pos

theorem nodup_blocks (cfg : ReplicatedConfig) : cfg.blocks.Nodup :=
  (cut_createBlockRequests cfg.blockSize_pos 0 cfg.length_pos).nodup cfg.blockSize_pos

theorem length_blocks_pos (cfg : ReplicatedConfig) : 0 < cfg.blocks.length := by
  have hcut := cut_createBlockRequests cfg.blockSize_pos 0 cfg.length_pos
  rw [ReplicatedConfig.blocks, length_map]
  cases hqs : createBlockRequests cfg.blockSize cfg.blockSize_pos 0 cfg.request with
  | nil => rw [hqs] at hcut; cases hcut
  | cons => simp

theorem armedCount_eq (cfg : ReplicatedConfig) :
    armedCount cfg.blockSize cfg.request = (cfg.blocks.length % 256 : Nat) := by
  rw [armedCount, length_blocks]

theorem length_step {a : Act} (hs : Stepped s a s') : s'.workers.length = s.workers.length := by
  cases hs with
  | @finish w v _ _ =>
    obtain ⟨_, _, _, heq⟩ := completeBlock_eq (s.setWorker w .finished)
    rw [heq]
    exact length_set
  | @reply i m ret _ =>
    obtain ⟨_, _, _, heq⟩ := complete_eq ⟨.replica, ret⟩ _
    rw [heq]
  | notify _ =>
    refine length_set.trans ?_
    dsimp only
    split
    · exact length_map _
    · rfl
  | _ => exact length_set

theorem length_workers (h : Reachable step ok (start cfg) s) :
    s.workers.length = cfg.blocks.length := by
  induction h with
  | init => exact length_replicate ..
  | tail _ _ hs ih => exact (length_step (step_cases hs)).trans ih

theorem pastCount_start (cfg : ReplicatedConfig) : pastCount (start cfg) = 0 := by
  show (List.replicate cfg.blocks.length Worker.preparing).countP isPast = 0
  rw [countP_replicate]
  rfl

/-- **The phases of a batch of at most 255 blocks.** -/
theorem phase_reachable (hh : cfg.handsOver = true) (hk : cfg.blocks.length ≤ 255)
    (h : Reachable step StoreWorks (start cfg) s) : Phase s := by
  induction h with
  | init =>
    refine Or.inl ⟨?_, ?_, ?_, rfl, rfl⟩
    · have hmod := Nat.mod_eq_of_lt (Nat.lt_succ_of_le hk)
      rw [pastCount_start, show (start cfg).sharedCount = _ from armedCount_eq cfg]
      omega
    · rw [pastCount_start]
      exact length_blocks_pos cfg
    · intro v hv
      rw [(mem_replicate.mp hv).2]
      rfl
  | tail hr hok hs ih => exact phase_step hh (length_workers hr) ih hok (step_cases hs)

/-! ## More than 255 blocks -/

def backCount (s : ReplicatedRequest cfg) : Nat := s.workers.countP isBack

structure Passing (s : ReplicatedRequest cfg) : Prop where
  back : backCount s ≤ cfg.blocks.length % 256
  count : 0 ≤ s.sharedCount → pastCount s + s.sharedCount = (cfg.blocks.length % 256 : Nat)

theorem Passing.frame (h : Passing s) (hback : backCount s' = backCount s)
    (hpast : pastCount s' = pastCount s) (hcount : s'.sharedCount = s.sharedCount) :
    Passing s' := by
  constructor
  · rw [hback]
    exact h.back
  · rw [hpast, hcount]
    exact h.count

theorem Passing.set {w : Nat} {v v' : Worker} (h : Passing s) (hw : s.workers[w]? = some v)
    (hs : s'.workers = s.workers.set w v') (hcount : s'.sharedCount = s.sharedCount)
    (hback : isBack v' = isBack v) (hpast : isPast v' = isPast v) : Passing s' := by
  refine h.frame ?_ ?_ hcount
  · unfold backCount
    rw [hs]
    exact countP_set_eq isBack hw hback
  · unfold pastCount
    rw [hs]
    exact countP_set_eq isPast hw hpast

theorem Passing.come {w : Nat} {v v' : Worker} (h : Passing s) (hw : s.workers[w]? = some v)
    (hs : s'.workers = s.workers.set w v') (hback : isBack v' = isBack v)
    (hpast : isPast v = false) (hpast' : isPast v' = true)
    (hcount : 0 ≤ s'.sharedCount → s'.sharedCount = s.sharedCount - 1) : Passing s' := by
  have hadd := countP_set_add isPast v' hw
  rw [← hs, hpast, hpast', Bool.toNat_false, Bool.toNat_true] at hadd
  have hpc : pastCount s' = pastCount s + 1 := hadd
  constructor
  · unfold backCount
    rw [hs, countP_set_eq isBack hw hback]
    exact h.back
  · intro hpos
    have hc := hcount hpos
    have := h.count (by omega)
    omega

theorem passing_step {a : Act} (hh : cfg.handsOver = true) (h : Passing s)
    (hs : Stepped s a s') : Passing s' := by
  cases hs with
  | insert hw _ _ | test hw _ | message hw | write hw | wait hw _ | sleep hw =>
    exact h.set hw rfl rfl rfl rfl
  | again hw hcount =>
    refine h.come hw rfl rfl rfl rfl fun hpos => ?_
    have : 0 ≤ s.sharedCount := hpos
    omega
  | decrement hw _ => exact h.come hw rfl rfl rfl rfl fun _ => rfl
  | last hw hcount =>
    refine h.come hw rfl rfl rfl rfl fun _ => ?_
    rw [hcount]
    rfl
  | notify hw =>
    exact h.frame (countP_notify isBack_wake hw rfl) (countP_notify isPast_wake hw rfl) rfl
  | @pass w hw hcount =>
    have hadd : backCount (s.setWorker w .returned) + 0 = backCount s + 1 :=
      countP_set_add isBack .returned hw
    have hpast : pastCount (s.setWorker w .returned) = pastCount s := countP_set_eq isPast hw rfl
    -- those that are back have come past the count, and so has this one
    have hlt : backCount s < pastCount s := countP_lt_of_getElem?
      (by intro v hv; cases v <;> first | rfl | cases hv) hw rfl rfl
    have hc := h.count (by omega)
    constructor
    · omega
    · intro _
      rw [hpast]
      exact hc
  | @finish w v hw hv =>
    obtain rfl := returned_of_finish hh hv
    obtain ⟨_, _, _, heq⟩ := completeBlock_eq (s.setWorker w .finished)
    rw [heq]
    exact h.set hw rfl rfl rfl rfl
  | @reply i m ret _ =>
    obtain ⟨_, _, _, heq⟩ := complete_eq ⟨.replica, ret⟩ _
    rw [heq]
    exact h.frame rfl rfl rfl

theorem passing_reachable (hh : cfg.handsOver = true)
    (h : Reachable step ok (start cfg) s) : Passing s := by
  induction h with
  | init =>
    constructor
    · show (List.replicate cfg.blocks.length Worker.preparing).countP isBack ≤ _
      rw [countP_replicate]
      exact Nat.zero_le _
    · intro _
      rw [pastCount_start, show (start cfg).sharedCount = _ from armedCount_eq cfg]
      simp
  | tail _ _ hs ih => exact passing_step hh ih (step_cases hs)

/-! ## The map -/

def isIn : Worker → Bool
  | .preparing => false
  | _ => true

/-- A call of `prepare_request`: a block, and where its buffer is. -/
structure Prepared where
  block : Nat
  data : Nat
  deriving DecidableEq, Repr

/-- The map after some calls. -/
def prepareAll (bs : Nat) (calls : List Prepared) : SegmentChain :=
  calls.foldl (fun c p => prepareRequest bs p.block p.data c) []

theorem prepareAll_append (bs : Nat) (calls : List Prepared) (p : Prepared) :
    prepareAll bs (calls ++ [p]) = prepareRequest bs p.block p.data (prepareAll bs calls) :=
  foldl_append

theorem prepareAll_spec {bs : Nat} (hbs : 0 < bs) (calls : List Prepared) :
    (calls.map Prepared.block).Nodup → (prepareAll bs calls).keys.Nodup
      ∧ (prepareAll bs calls).keys ⊆ calls.map Prepared.block
      ∧ (prepareAll bs calls).length ≤ calls.length ∧ (calls ≠ [] → prepareAll bs calls ≠ []) := by
  induction calls using List.reverseRecOn with
  | nil => exact fun _ => ⟨nodup_nil, nil_subset _, Nat.le_refl _, fun h => absurd rfl h⟩
  | append_singleton calls p ih =>
    intro hids
    rw [map_append, nodup_append] at hids
    obtain ⟨hnodup, hsub, hlen, -⟩ := ih hids.1
    have hfresh : p.block ∉ (prepareAll bs calls).keys := fun hmem =>
      hids.2.2 _ (hsub hmem) _ mem_cons_self rfl
    obtain ⟨hne, hnodup', hkeys, hlen'⟩ := prepareRequest_spec p.data hbs hnodup hfresh
    rw [prepareAll_append, map_append, length_append]
    refine ⟨hnodup', fun b hb => ?_, Nat.le_trans hlen' (Nat.succ_le_succ hlen), fun _ => hne⟩
    rcases hkeys b hb with rfl | hold
    · exact mem_append_right _ mem_cons_self
    · exact mem_append_left _ (hsub hold)

structure MadeOf (s : ReplicatedRequest cfg) (ids : List Nat) : Prop where
  chain : s.chain = prepareAll cfg.blockSize (ids.map fun b => ⟨b, cfg.buffer b⟩)
  nodup : ids.Nodup
  mem : ∀ w b : Nat, cfg.blocks[w]? = some b → (b ∈ ids ↔ (s.workers.map isIn)[w]? = some true)
  sub : ids ⊆ cfg.blocks

theorem MadeOf.frame {ids : List Nat} (h : MadeOf s ids) (hchain : s'.chain = s.chain)
    (hin : s'.workers.map isIn = s.workers.map isIn) : MadeOf s' ids :=
  ⟨hchain.trans h.chain, h.nodup, fun w b hb => by rw [hin]; exact h.mem w b hb, h.sub⟩

theorem MadeOf.insert {ids : List Nat} {w b : Nat} (h : MadeOf s ids)
    (hw : s.workers[w]? = some .preparing) (hb : cfg.blocks[w]? = some b) :
    MadeOf (setWorker w .inserted
      ({ s with chain := prepareRequest cfg.blockSize b (cfg.buffer b) s.chain } :
        ReplicatedRequest cfg)) (ids ++ [b]) := by
  have hflag : (s.workers.map isIn)[w]? = some false := by rw [getElem?_map, hw]; rfl
  have hfresh : b ∉ ids := by
    rw [h.mem w b hb, hflag]
    simp
  constructor
  · show prepareRequest _ _ _ s.chain = _
    rw [h.chain, map_append]
    exact (prepareAll_append _ _ ⟨b, cfg.buffer b⟩).symm
  · exact nodup_append.mpr ⟨h.nodup, nodup_singleton b, fun c hc d hd =>
      mem_singleton.mp hd ▸ fun heq => hfresh (heq ▸ hc)⟩
  · intro w' b' hb'
    show _ ↔ ((s.workers.set w .inserted).map isIn)[w']? = some true
    rw [map_set, mem_append, mem_singleton, h.mem w' b' hb']
    by_cases hww : w = w'
    · subst hww
      rw [getElem?_set_self (lt_of_getElem? hflag)]
      exact iff_of_true (.inr (Option.some.inj (hb'.symm.trans hb))) rfl
    · have hne : b' ≠ b := by
        rintro rfl
        exact hww ((getElem?_inj (lt_of_getElem? hb) (nodup_blocks cfg)).mp (hb.trans hb'.symm))
      rw [getElem?_set_ne hww, or_iff_left hne]
  · exact append_subset.mpr ⟨h.sub, cons_subset.mpr ⟨mem_of_getElem? hb, nil_subset _⟩⟩

theorem madeOf_reachable (hh : cfg.handsOver = true)
    (h : Reachable step ok (start cfg) s) : ∃ ids, MadeOf s ids := by
  induction h with
  | init =>
    refine ⟨[], rfl, nodup_nil, fun w b _ => ?_, nil_subset _⟩
    refine iff_of_false not_mem_nil fun hin => ?_
    have hmem := mem_of_getElem? hin
    simp [start, isIn] at hmem
  | tail _ _ hs ih =>
    obtain ⟨ids, ih⟩ := ih
    cases step_cases hs with
    | insert hw hb _ => exact ⟨_, ih.insert hw hb⟩
    | notify hw => exact ⟨ids, ih.frame rfl (map_notify (fun v => by cases v <;> rfl) hw rfl)⟩
    | @finish w v hw hv =>
      obtain rfl := returned_of_finish hh hv
      obtain ⟨_, _, _, heq⟩ := completeBlock_eq (setWorker w .finished _)
      rw [heq]
      exact ⟨ids, ih.frame rfl (map_set_eq hw rfl)⟩
    | @reply i m ret _ =>
      obtain ⟨_, _, _, heq⟩ := complete_eq ⟨.replica, ret⟩ _
      rw [heq]
      exact ⟨ids, ih.frame rfl rfl⟩
    | test hw _ | again hw _ | decrement hw _ | last hw _ | message hw | write hw | pass hw _
    | wait hw _ | sleep hw => exact ⟨ids, ih.frame rfl (map_set_eq hw rfl)⟩

theorem MadeOf.spec {ids : List Nat} (h : MadeOf s ids) :
    s.chain.length ≤ cfg.blocks.length ∧ (ids ≠ [] → s.chain ≠ []) := by
  have hmap : (ids.map fun b => Prepared.mk b (cfg.buffer b)).map Prepared.block = ids := by
    rw [map_map]
    exact map_id ids
  obtain ⟨-, -, hlen, hne⟩ := prepareAll_spec cfg.blockSize_pos
    (ids.map fun b => ⟨b, cfg.buffer b⟩) (hmap.symm ▸ h.nodup)
  rw [length_map] at hlen
  rw [h.chain]
  exact ⟨Nat.le_trans hlen (List.Nodup.subperm h.nodup h.sub).length_le,
    fun hids => hne (map_eq_nil_iff.not.mpr hids)⟩

end Runs

end HDCS.Proof
