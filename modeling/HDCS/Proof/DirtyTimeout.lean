import HDCS.Proof.Throttle

/-!
# Dirty timeouts and the lock of the timer

The timer thread has `map_lock` while it runs the callbacks of the timeouts that have expired, and
a callback waits until there is room for its FLUSH. A FLUSH that is in flight needs the lock
to go on. So no FLUSH that has not had the lock yet makes room before the iteration is over,
and if there are more of them than there is room for, the timer thread waits for ever.

An iteration deadlocks in some run if and only if the requests in flight at its beginning and the
timeouts that have expired are together more than half of `process_threads_num`.
-/

namespace HDCS.Proof

open Lib Background Lib.Machine List

variable {cfg : BackgroundConfig} {s s' t : Background cfg} {a : Act} {i left m : Nat}

def Awaits (s : Background cfg) : Prop :=
  ∃ left, s.producers .flush = .asleep left
    ∨ (s.producers .flush = .testing left ∨ s.producers .flush = .drowsy left)
      ∧ cfg.half ≤ s.processBlocksCount

/-- It does, and every FLUSH that is in flight waits for the lock. -/
def Deadlocked (s : Background cfg) : Prop :=
  Awaits s ∧ ∀ r ∈ s.requests, r.kind = .flush → isOpen r.phase = true → r.phase = .locking

/-- The eviction loop does nothing, and every FLUSH has a timeout to cancel. -/
def FlushOnly (_ : Background cfg) : Act → Prop
  | .start .demote _ | .skip _ => False
  | _ => True

/-- A step of one iteration of the timer. -/
def Within (s : Background cfg) (a : Act) : Prop := FlushOnly s a ∧ ∀ k n, a ≠ .start k n

/-- The timeouts that have expired fit into the room there is. -/
def TimeoutsFit (s : Background cfg) : Act → Prop
  | .start _ m => openRequests s.requests + m ≤ cfg.half
  | _ => True

instance (s : Background cfg) : ∀ a, Decidable (FlushOnly s a)
  | .start .demote _ | .skip _ => inferInstanceAs (Decidable False)
  | .start .flush _ | .test _ | .sleep _ | .wakeUp _ | .enqueue _ | .count _ | .cancel _
  | .cancelled _ | .complete _ | .notify _ => inferInstanceAs (Decidable True)

instance (s : Background cfg) : ∀ a, Decidable (TimeoutsFit s a)
  | .start _ _ => inferInstanceAs (Decidable (_ ≤ _))
  | .test _ | .sleep _ | .wakeUp _ | .enqueue _ | .count _ | .cancel _ | .cancelled _ | .skip _
  | .complete _ | .notify _ => inferInstanceAs (Decidable True)

/-! ## The counter -/

def isBefore : BackgroundPhase → Bool
  | .queued | .locking => true
  | _ => false

def beforeRequests (requests : List BackgroundRequest) : Nat :=
  requests.countP fun r => isBefore r.phase

structure FlushShape (producers : BackgroundKind → Producer) (requests : List BackgroundRequest) :
    Prop where
  demote : producers .demote = .idle
  kinds : ∀ r ∈ requests, r.kind = .flush
  /-- What is about to be counted has not had the lock. -/
  fresh : ∀ left, producers .flush = .counting left → 0 < beforeRequests requests

section Shape

variable {producers : BackgroundKind → Producer} {requests : List BackgroundRequest}
  {k : BackgroundKind}

theorem FlushShape.request (h : FlushShape producers requests) {p : BackgroundPhase}
    (hi : requests[i]? = some ⟨k, p⟩) (q : BackgroundPhase)
    (hbefore : isBefore q = isBefore p ∨ producers .flush = .idle) :
    FlushShape producers (requests.set i ⟨k, q⟩) where
  demote := h.demote
  kinds := forall_mem_set h.kinds (h.kinds ⟨k, p⟩ (mem_of_getElem? hi))
  fresh := fun left hk => by
    rcases hbefore with hbefore | hidle
    · have hsame : beforeRequests (requests.set i ⟨k, q⟩) = beforeRequests requests :=
        countP_set_eq (fun r : BackgroundRequest => isBefore r.phase) hi hbefore
      rw [hsame]
      exact h.fresh left hk
    · cases hidle.symm.trans hk

theorem FlushShape.move (h : FlushShape producers requests) {p : Producer}
    (hp : ∀ left, p = .counting left → 0 < beforeRequests requests) :
    FlushShape (Function.update producers .flush p) requests where
  demote := (Function.update_of_ne (by decide) _ _).trans h.demote
  kinds := h.kinds
  fresh := fun left hk => hp left ((Function.update_self ..).symm.trans hk)

theorem FlushShape.enqueue (h : FlushShape producers requests) :
    FlushShape producers (requests ++ [⟨.flush, .queued⟩]) where
  demote := h.demote
  kinds := fun r hr => by
    rcases mem_append.mp hr with hr | hr
    · exact h.kinds r hr
    · rw [mem_singleton.mp hr]
  fresh := fun _ _ => countP_pos_iff.mpr ⟨⟨.flush, .queued⟩, by simp, rfl⟩

end Shape

structure FlushInv (s : Background cfg) : Prop where
  shape : FlushShape s.producers s.requests
  tallied : Tallied s

theorem flushInv_new (cfg : BackgroundConfig) : FlushInv (new cfg) where
  shape := ⟨rfl, fun _ hr => absurd hr not_mem_nil, fun _ hk => absurd hk (by simp [new])⟩
  tallied := tallied_new cfg

theorem FlushInv.both_eq (h : FlushInv s) {f : Producer → Nat} (hf : f .idle = 0) :
    both f s = f (s.producers .flush) := by
  unfold both
  rw [h.shape.demote, hf, Nat.zero_add]

theorem FlushInv.count_eq (h : FlushInv s) (hk : uncountedBy (s.producers .flush) = 0) :
    s.processBlocksCount = openRequests s.requests := by
  have hcounted := h.tallied.counted
  rw [h.both_eq rfl, hk, Nat.add_zero] at hcounted
  exact hcounted

theorem FlushInv.isFlush (h : FlushInv s) {k : BackgroundKind} {p : Producer} (hp : p ≠ .idle)
    (hk : s.producers k = p) : k = .flush := by
  cases k with
  | demote => exact absurd (hk.symm.trans h.shape.demote) hp
  | flush => rfl

theorem isOpen_of_isBefore {p : BackgroundPhase} (h : isBefore p = true) : isOpen p = true := by
  cases p <;> first | rfl | cases h

theorem FlushInv.counterFits (h : FlushInv s) (hs : s.step a = some s') : CounterFits s a := by
  cases step_cases hs with
  | @pass k left hk _ =>
    obtain rfl := h.isFlush (by simp) hk
    intro hlt
    rw [h.both_eq rfl, h.both_eq rfl, hk]
    exact hlt
  | @wait k left hk hge => exact fun hlt => absurd hlt (Nat.not_lt_of_le hge)
  | @complete i _ k hi _ =>
    -- a request that is not counted yet is not this one
    show 0 < s.processBlocksCount
    have hlt : beforeRequests s.requests < openRequests s.requests :=
      countP_lt_of_getElem? (fun _ hr => isOpen_of_isBefore hr) hi rfl rfl
    have hcounted := h.tallied.counted
    rw [h.both_eq rfl] at hcounted
    cases hk : s.producers .flush with
    | counting left =>
      have hfresh := h.shape.fresh left hk
      rw [hk] at hcounted
      simp only [uncountedBy] at hcounted
      omega
    | idle | testing | drowsy | asleep | enqueuing =>
      rw [hk] at hcounted
      simp only [uncountedBy] at hcounted
      omega
  | start | sleep | wakeUp | enqueue | count | cancel | cancelled | skip | notify => exact trivial

theorem more_ne_counting (n left : Nat) : Producer.more n ≠ .counting left := by
  cases n <;> simp [Producer.more]

theorem flushShape_step (h : FlushInv s) (hok : FlushOnly s a) (hs : s.step a = some s') :
    FlushShape s'.producers s'.requests := by
  have hshape := h.shape
  cases step_cases hs with
  | @start k left hk =>
    cases k with
    | demote => cases hok
    | flush => exact hshape.move fun _ hp => absurd hp (more_ne_counting _ _)
  | @pass k left hk _ =>
    obtain rfl := h.isFlush (by simp) hk
    exact hshape.move fun _ hp => nomatch hp
  | @wait k left hk _ =>
    obtain rfl := h.isFlush (by simp) hk
    exact hshape.move fun _ hp => nomatch hp
  | @sleep k left hk =>
    obtain rfl := h.isFlush (by simp) hk
    exact hshape.move fun _ hp => nomatch hp
  | @wakeUp k left hk =>
    obtain rfl := h.isFlush (by simp) hk
    exact hshape.move fun _ hp => nomatch hp
  | @enqueue k left hk =>
    obtain rfl := h.isFlush (by simp) hk
    exact hshape.enqueue.move fun left' hp =>
      countP_pos_iff.mpr ⟨⟨.flush, .queued⟩, by simp, rfl⟩
  | @count k left _ hk _ =>
    obtain rfl := h.isFlush (by simp) hk
    exact hshape.move fun _ hp => absurd hp (more_ne_counting _ _)
  | @cancel i hi => exact hshape.request hi _ (Or.inl rfl)
  | @cancelled i hi hidle => exact hshape.request hi _ (Or.inr hidle)
  | skip => cases hok
  | @complete i count k hi _ =>
    refine hshape.request hi _ (Or.inl ?_)
    split <;> rfl
  | @notify i k hi =>
    obtain rfl : k = .flush := hshape.kinds _ (mem_of_getElem? hi)
    have hreq := hshape.request hi .completed (Or.inl rfl)
    exact hreq.move fun left hp => hreq.fresh left (wake_eq_counting hp)

theorem flushInv_step (h : FlushInv s) (hok : FlushOnly s a) (hs : s.step a = some s') :
    FlushInv s' :=
  ⟨flushShape_step h hok hs, tallied_step h.tallied (h.counterFits hs) hs⟩

theorem flushInv_reachable (h : FlushInv s) (ht : Reachable step FlushOnly s t) :
    FlushInv t :=
  Reachable.invariant h (fun _ _ _ hinv hok hs => flushInv_step hinv hok hs) ht

theorem flushInv_within (h : FlushInv s) (ht : Reachable step Within s t) : FlushInv t :=
  flushInv_reachable h (ht.mono fun _ _ hok => hok.1)

/-! ## An iteration that fits -/

def Budget (s : Background cfg) : Prop :=
  match s.producers .flush with
  | .idle => True
  | .testing left | .enqueuing left => 0 < left ∧ openRequests s.requests + left ≤ cfg.half
  | .counting left => 0 < left ∧ openRequests s.requests + left ≤ cfg.half + 1
  | .drowsy _ | .asleep _ => False

theorem Budget.of_le (h : Budget s) (hsame : s'.producers .flush = s.producers .flush)
    (hle : openRequests s'.requests ≤ openRequests s.requests) : Budget s' := by
  unfold Budget at h ⊢
  rw [hsame]
  cases hk : s.producers .flush with
  | idle => exact trivial
  | testing left | enqueuing left | counting left =>
    rw [hk] at h
    exact ⟨h.1, by have := h.2; omega⟩
  | drowsy left | asleep left =>
    rw [hk] at h
    exact h

theorem budget_more {n : Nat} (hk : s.producers .flush = .more n)
    (hfits : openRequests s.requests + n ≤ cfg.half) : Budget s := by
  unfold Budget
  rw [hk]
  cases n with
  | zero => exact trivial
  | succ n => exact ⟨n.succ_pos, hfits⟩

theorem Budget.not_awaits (h : Budget s) (hinv : FlushInv s) : ¬ Awaits s := by
  unfold Budget at h
  rintro ⟨left, hk | ⟨hk | hk, hge⟩⟩
  · rw [hk] at h
    exact h
  · have hcount := hinv.count_eq (by rw [hk]; rfl)
    rw [hk] at h
    dsimp only at h
    omega
  · rw [hk] at h
    exact h

theorem budget_step (h : Budget s) (hinv : FlushInv s) (hok : FlushOnly s a)
    (hfit : TimeoutsFit s a) (hs : s.step a = some s') : Budget s' := by
  cases step_cases hs with
  | @start k m hk =>
    cases k with
    | demote => cases hok
    | flush => exact budget_more (setProducer_self ..) hfit
  | @pass k left hk _ =>
    obtain rfl := hinv.isFlush (by simp) hk
    unfold Budget at h ⊢
    rw [hk] at h
    rw [setProducer_self]
    exact h
  | @wait k left hk hge =>
    obtain rfl := hinv.isFlush (by simp) hk
    exact absurd ⟨left, Or.inr ⟨Or.inl hk, hge⟩⟩ (h.not_awaits hinv)
  | @sleep k left hk =>
    obtain rfl := hinv.isFlush (by simp) hk
    unfold Budget at h
    rw [hk] at h
    exact h.elim
  | @wakeUp k left hk =>
    obtain rfl := hinv.isFlush (by simp) hk
    unfold Budget at h
    rw [hk] at h
    exact h.elim
  | @enqueue k left hk =>
    obtain rfl := hinv.isFlush (by simp) hk
    unfold Budget at h ⊢
    rw [hk] at h
    rw [setProducer_self]
    have hone : openRequests (s.requests ++ [⟨.flush, .queued⟩]) = openRequests s.requests + 1 :=
      openRequests_enqueue
    show 0 < left ∧ openRequests (s.requests ++ [⟨.flush, .queued⟩]) + left ≤ cfg.half + 1
    dsimp only at h
    omega
  | @count k left _ hk _ =>
    obtain rfl := hinv.isFlush (by simp) hk
    unfold Budget at h
    rw [hk] at h
    refine budget_more (setProducer_self ..) ?_
    show openRequests s.requests + (left - 1) ≤ cfg.half
    dsimp only at h
    omega
  | @cancel i hi =>
    refine h.of_le rfl (Nat.le_of_eq ?_)
    exact Nat.add_right_cancel (openRequests_set hi .locking)
  | @cancelled i hi _ =>
    refine h.of_le rfl (Nat.le_of_eq ?_)
    exact Nat.add_right_cancel (openRequests_set hi .passed)
  | skip => cases hok
  | @complete i count k hi _ =>
    refine h.of_le rfl ?_
    have hset := openRequests_set hi (if count < cfg.half then .notifying else .completed)
    have hle := Bool.toNat_le (isOpen (if count < cfg.half then .notifying else .completed))
    have hpassed : (isOpen .passed).toNat = 1 := rfl
    show openRequests (s.requests.set i _) ≤ _
    omega
  | @notify i k hi =>
    obtain rfl : k = .flush := hinv.shape.kinds _ (mem_of_getElem? hi)
    refine h.of_le ?_ (Nat.le_of_eq (Nat.add_right_cancel (openRequests_set hi .completed)))
    rw [setProducer_self]
    unfold Budget at h
    cases hk : s.producers .flush with
    | asleep left =>
      rw [hk] at h
      exact h.elim
    | idle | testing | drowsy | enqueuing | counting => rfl

theorem not_awaits_reachable (h : FlushInv s) (hbudget : Budget s)
    (ht : Reachable step (fun s a => FlushOnly s a ∧ TimeoutsFit s a) s t) :
    ¬ Awaits t := by
  have hinv := Reachable.invariant (I := fun s => FlushInv s ∧ Budget s) ⟨h, hbudget⟩
    (fun _ _ _ hinv hok hs =>
      ⟨flushInv_step hinv.1 hok.1 hs, budget_step hinv.2 hinv.1 hok.1 hok.2 hs⟩) ht
  exact hinv.2.not_awaits hinv.1

theorem timeoutsFit_of_within (h : Within s a) : TimeoutsFit s a := by
  cases a with
  | start k n => exact absurd rfl (h.2 k n)
  | _ => exact trivial

/-! ## An iteration that does not -/

theorem within_tail {u v : Background cfg} (h : Reachable step Within s u)
    (hs : Stepped u a v) (hok : FlushOnly u a) (hstart : ∀ k n, a ≠ .start k n) :
    Reachable step Within s v :=
  h.tail ⟨hok, hstart⟩ hs.step_eq

theorem exists_round (h : FlushInv s) (hk : s.producers .flush = .testing (left + 2))
    (hroom : openRequests s.requests < cfg.half) :
    ∃ t, Reachable step Within s t ∧ t.producers .flush = .testing (left + 1)
      ∧ openRequests t.requests = openRequests s.requests + 1 := by
  have hlt : s.processBlocksCount < cfg.half := by
    rw [h.count_eq (by rw [hk]; rfl)]
    exact hroom
  have hpass := within_tail .init (Stepped.pass hk hlt) trivial (by simp)
  have henqueue := within_tail hpass (Stepped.enqueue (setProducer_self ..)) trivial (by simp)
  have hcount := within_tail henqueue (Stepped.count (setProducer_self ..) rfl) trivial (by simp)
  exact ⟨_, hcount, setProducer_self .., openRequests_enqueue⟩

theorem exists_full (room : Nat) : ∀ {s : Background cfg} {left : Nat}, FlushInv s →
    s.producers .flush = .testing (left + 1 + room) → openRequests s.requests + room = cfg.half →
    ∃ t, Reachable step Within s t ∧ t.producers .flush = .testing (left + 1)
      ∧ openRequests t.requests = cfg.half := by
  induction room with
  | zero => exact fun _ hk hroom => ⟨_, .init, hk, hroom⟩
  | succ room ih =>
    intro s left h hk hroom
    have hk' : s.producers .flush = .testing (left + room + 2) := by
      rw [hk]
      congr 1
      omega
    obtain ⟨u, hu, hku, hopen⟩ := exists_round h hk' (by omega)
    rw [Nat.add_right_comm] at hku
    obtain ⟨t, ht, hkt, hfull⟩ := ih (flushInv_within h hu) hku (by omega)
    exact ⟨t, hu.trans ht, hkt, hfull⟩

theorem exists_moved {p : BackgroundPhase} (P : BackgroundPhase → Prop)
    (hmove : ∀ (s : Background cfg) i, s.requests[i]? = some ⟨.flush, p⟩ → ∃ a s' q, Within s a
      ∧ s.step a = some s' ∧ s'.producers = s.producers ∧ s'.requests = s.requests.set i ⟨.flush, q⟩
      ∧ q ≠ p ∧ P q) (s : Background cfg)
    (hkinds : ∀ r ∈ s.requests, r.kind = .flush) (hP : ∀ r ∈ s.requests, r.phase ≠ p → P r.phase) :
    ∃ t, Reachable step Within s t ∧ t.producers = s.producers
      ∧ ∀ r ∈ t.requests, r.kind = .flush ∧ P r.phase ∧ r.phase ≠ p := by
  induction hn : s.requests.countP (fun r => r.phase = p) generalizing s with
  | zero =>
    refine ⟨s, .init, rfl, fun r hr => ?_⟩
    have hne : r.phase ≠ p := fun heq => countP_eq_zero.mp hn r hr (decide_eq_true heq)
    exact ⟨hkinds r hr, hP r hr hne, hne⟩
  | succ n ih =>
    obtain ⟨⟨k, p'⟩, hmem, hphase⟩ :=
      countP_pos_iff.mp (Nat.lt_of_lt_of_eq n.succ_pos hn.symm)
    obtain ⟨i, hi⟩ := mem_iff_getElem?.mp hmem
    obtain rfl : k = .flush := hkinds _ hmem
    obtain rfl : p' = p := of_decide_eq_true hphase
    obtain ⟨a, u, q, hok, hs, hproducers, hrequests, hne, hPq⟩ := hmove s i hi
    have hcount :=
      countP_set_add (fun r : BackgroundRequest => decide (r.phase = p')) ⟨.flush, q⟩ hi
    obtain ⟨t, ht, hsame, hall⟩ := ih u (by rw [hrequests]; exact forall_mem_set hkinds rfl)
      (by rw [hrequests]; exact forall_mem_set hP (fun _ => hPq))
      (by
        rw [hrequests]
        simp only [decide_true, hne, decide_false, Bool.toNat_true, Bool.toNat_false] at hcount
        omega)
    exact ⟨t, (Reachable.init.tail hok hs).trans ht, hsame.trans hproducers, hall⟩

/-- **An iteration that does not fit can deadlock.** -/
theorem exists_deadlocked (h : FlushInv s) (hk : s.producers .flush = .more m)
    (hmany : cfg.half < openRequests s.requests + m) :
    ∃ t, Reachable step Within s t ∧ Deadlocked t := by
  have hroom := h.tallied.room
  -- the thread enqueues as long as there is room, and does not find any more
  obtain ⟨left, hleft⟩ : ∃ left, m = left + 1 + (cfg.half - openRequests s.requests) :=
    ⟨m - (cfg.half - openRequests s.requests) - 1, by omega⟩
  have hk' : s.producers .flush = .testing (left + 1 + (cfg.half - openRequests s.requests)) := by
    rw [hk, hleft, Nat.add_right_comm]
    rfl
  obtain ⟨u, hu, hku, hfull⟩ := exists_full _ h hk' (by omega)
  have hinv := flushInv_within h hu
  have hge : cfg.half ≤ u.processBlocksCount := by
    rw [hinv.count_eq (by rw [hku]; rfl)]
    exact Nat.le_of_eq hfull.symm
  have hwait := within_tail hu (Stepped.wait hku hge) trivial (by simp)
  -- what has had the lock is completed, and notifies a thread that does not sleep yet
  obtain ⟨v, hv, hvsame, hvall⟩ := exists_moved (p := .passed) (fun p => p ≠ .passed)
    (fun s i hi => by
      obtain ⟨count, hcount⟩ : ∃ count, count = decr64 s.processBlocksCount := ⟨_, rfl⟩
      exact ⟨.complete i, _, _, ⟨trivial, by simp⟩, (Stepped.complete hi hcount).step_eq, rfl, rfl,
        by split <;> simp, by split <;> simp⟩)
    (u.setProducer .flush (.drowsy (left + 1))) hinv.shape.kinds (fun _ _ hne => hne)
  have hvk : v.producers .flush = .drowsy (left + 1) := by
    rw [hvsame, setProducer_self]
  have hsleep := within_tail (hwait.trans hv) (Stepped.sleep hvk) trivial (by simp)
  -- and everything else comes to the lock
  obtain ⟨w, hw, hwsame, hwall⟩ := exists_moved (p := .queued) (fun p => p ≠ .passed)
    (fun s i hi => ⟨.cancel i, _, _, ⟨trivial, by simp⟩, (Stepped.cancel hi).step_eq, rfl, rfl,
      by simp, by simp⟩)
    (v.setProducer .flush (.asleep (left + 1))) (fun r hr => (hvall r hr).1)
    (fun r hr _ => (hvall r hr).2.1)
  refine ⟨w, hsleep.trans hw, ⟨left + 1, Or.inl ?_⟩, fun r hr _ hopen => ?_⟩
  · rw [hwsame, setProducer_self]
  · obtain ⟨-, hpassed, hqueued⟩ := hwall r hr
    cases hp : r.phase with
    | locking => rfl
    | queued => exact absurd hp hqueued
    | passed => exact absurd hp hpassed
    | notifying | completed =>
      rw [hp] at hopen
      cases hopen

/--
**Dirty timeouts do not deadlock the cache as long as they fit**, and an iteration that they do
not fit into deadlocks in some run. This is without the eviction loop (`FlushOnly`): it shares the
counter, and what it has in flight would take room too.
-/
theorem dirtyTimeouts_deadlock (cfg : BackgroundConfig) :
    (∀ s, Reachable step (fun s a => FlushOnly s a ∧ TimeoutsFit s a) (new cfg) s → ¬ Deadlocked s)
    ∧ ∀ s m, Reachable step FlushOnly (new cfg) s → s.producers .flush = .idle →
      ((∀ t, Reachable step Within (s.setProducer .flush (.more m)) t → ¬ Deadlocked t)
        ↔ openRequests s.requests + m ≤ cfg.half) := by
  constructor
  · intro s hs hdead
    exact not_awaits_reachable (flushInv_new cfg) trivial hs hdead.1
  · intro s m hs hidle
    have hstart : FlushInv (s.setProducer .flush (.more m)) :=
      flushInv_reachable (flushInv_new cfg)
        (hs.tail (a := Act.start .flush m) trivial (Stepped.start hidle).step_eq)
    constructor
    · intro hnone
      by_contra hmany
      obtain ⟨t, ht, hdead⟩ := exists_deadlocked hstart (setProducer_self ..)
        (Nat.lt_of_not_le hmany)
      exact hnone t ht hdead
    · intro hfits t ht hdead
      exact not_awaits_reachable hstart (budget_more (setProducer_self ..) hfits)
        (ht.mono fun _ _ hok => ⟨hok.1, timeoutsFit_of_within hok⟩) hdead.1

/-- Three timeouts that expire together, with room for three: none of them waits. -/
theorem dirtyTimeouts_fit : ∃ s : Background ⟨6, by decide, by decide⟩,
    Reachable step (fun s a => FlushOnly s a ∧ TimeoutsFit s a) (new _) s
      ∧ s.requests = [⟨.flush, .locking⟩, ⟨.flush, .queued⟩, ⟨.flush, .queued⟩]
      ∧ s.producers .flush = .idle ∧ ¬ Deadlocked s := by
  have hrun : (run step (fun s a => FlushOnly s a ∧ TimeoutsFit s a)
      (new ⟨6, by decide, by decide⟩)
      [.start .flush 3, .test .flush, .enqueue .flush, .count .flush, .cancel 0, .test .flush,
        .enqueue .flush, .count .flush, .test .flush, .enqueue .flush, .count .flush]).map
      (fun s => decide (s.requests = [⟨.flush, .locking⟩, ⟨.flush, .queued⟩, ⟨.flush, .queued⟩]
        ∧ s.producers .flush = .idle)) = some true := by decide +kernel
  obtain ⟨s, hs, hrequests, hk⟩ := Reachable.of_run_decide hrun
  exact ⟨s, hs, hrequests, hk, (dirtyTimeouts_deadlock _).1 s hs⟩

/--
Two timeouts that expire together, with room for one: the timer thread sleeps with the lock,
and the FLUSH of the first timeout waits for it.
-/
theorem dirtyTimeouts_deadlocked : ∃ s : Background ⟨2, by decide, by decide⟩,
    Reachable step FlushOnly (new _) s ∧ s.producers .flush = .asleep 1
      ∧ s.requests = [⟨.flush, .locking⟩] ∧ s.processBlocksCount = 1 ∧ Deadlocked s := by
  have hrun : (run step FlushOnly (new ⟨2, by decide, by decide⟩)
      [.start .flush 2, .test .flush, .enqueue .flush, .count .flush, .cancel 0, .test .flush,
        .sleep .flush]).map
      (fun s => decide (s.producers .flush = .asleep 1 ∧ s.requests = [⟨.flush, .locking⟩]
        ∧ s.processBlocksCount = 1)) = some true := by decide +kernel
  obtain ⟨s, hs, hk, hrequests, hcount⟩ := Reachable.of_run_decide hrun
  refine ⟨s, hs, hk, hrequests, hcount, ⟨1, Or.inl hk⟩, fun r hr _ _ => ?_⟩
  rw [hrequests] at hr
  rw [mem_singleton.mp hr]

end HDCS.Proof
