import HDCS.Core.Background

/-!
# When the background work is throttled

The two threads share a counter and nothing else, and three things can go wrong. A request that
is completed before it is counted takes the counter below zero. A thread that finds room does
not see what the other one is about to enqueue. And a thread that goes to sleep is notified by
its own requests only, so if none of them is under way any more it is not notified at all.

These are all: in a run that avoids them (`Orderly`) the counter is exact, the limit is kept, and
whoever sleeps has a request under way that will notify it.
-/

namespace HDCS.Proof

open Lib Background Lib.Machine List

variable {cfg : BackgroundConfig}

/-! ## What is counted -/

def isOpen : BackgroundPhase → Bool
  | .queued | .locking | .passed => true
  | .notifying | .completed => false

/-- The requests in flight. -/
def openRequests (requests : List BackgroundRequest) : Nat :=
  requests.countP fun r => isOpen r.phase

def uncountedBy : Producer → Nat
  | .counting _ => 1
  | _ => 0

def plannedBy : Producer → Nat
  | .enqueuing _ => 1
  | _ => 0

def both (f : Producer → Nat) (s : Background cfg) : Nat :=
  f (s.producers .demote) + f (s.producers .flush)

variable {s s' : Background cfg} {a : Act} {k : BackgroundKind} {i left : Nat}

theorem both_setProducer (f : Producer → Nat) (k : BackgroundKind) (p : Producer) :
    both f (s.setProducer k p) + f (s.producers k) = both f s + f p := by
  unfold both
  cases k with
  | demote | flush =>
    rw [setProducer_self, setProducer_of_ne (by decide)]
    omega

theorem setProducer_cases {k' : BackgroundKind} {p q : Producer}
    (h : (s.setProducer k p).producers k' = q) :
    (k' = k ∧ p = q) ∨ (k' ≠ k ∧ s.producers k' = q) := by
  by_cases hk : k' = k
  · subst hk
    rw [setProducer_self] at h
    exact Or.inl ⟨rfl, h⟩
  · rw [setProducer_of_ne hk] at h
    exact Or.inr ⟨hk, h⟩

section

variable {requests : List BackgroundRequest} {p q : BackgroundPhase}

theorem openRequests_set (h : requests[i]? = some ⟨k, p⟩) (q : BackgroundPhase) :
    openRequests (requests.set i ⟨k, q⟩) + (isOpen p).toNat
      = openRequests requests + (isOpen q).toNat :=
  countP_set_add (fun r : BackgroundRequest => isOpen r.phase) ⟨k, q⟩ h

theorem openRequests_enqueue :
    openRequests (requests ++ [⟨k, .queued⟩]) = openRequests requests + 1 := by
  unfold openRequests
  rw [countP_append]
  rfl

end

/-! ## The counter -/

structure Tallied (s : Background cfg) : Prop where
  counted : s.processBlocksCount + both uncountedBy s = openRequests s.requests
  room : openRequests s.requests + both plannedBy s ≤ cfg.half

def WasCounted (s : Background cfg) (i : Nat) : Prop :=
  ∀ r ∈ s.requests[i]?, uncountedBy (s.producers r.kind) = 0
    ∨ r.kind ∈ (s.requests.map BackgroundRequest.kind).drop (i + 1)

instance (s : Background cfg) (i : Nat) : Decidable (WasCounted s i) :=
  inferInstanceAs (Decidable (∀ r ∈ s.requests[i]?, _))

def Ordered (s : Background cfg) : Act → Prop
  | .test _ => s.processBlocksCount < cfg.half →
      s.processBlocksCount + both uncountedBy s + both plannedBy s < cfg.half
  | .complete i => WasCounted s i
  | _ => True

instance (s : Background cfg) : ∀ a, Decidable (Ordered s a)
  | .test _ => inferInstanceAs (Decidable (_ → _))
  | .complete i => inferInstanceAs (Decidable (WasCounted s i))
  | .start _ _ | .sleep _ | .wakeUp _ | .enqueue _ | .count _ | .cancel _ | .cancelled _ | .skip _
  | .notify _ => inferInstanceAs (Decidable True)

theorem half_lt (cfg : BackgroundConfig) : cfg.half < 2 ^ 64 := by
  have hlt := cfg.lt
  unfold BackgroundConfig.half
  omega

theorem tallied_new (cfg : BackgroundConfig) : Tallied (new cfg) := ⟨rfl, Nat.zero_le _⟩

theorem Tallied.move (h : Tallied s) {p : Producer}
    (huncounted : uncountedBy p = uncountedBy (s.producers k))
    (hroom : openRequests s.requests + both plannedBy (s.setProducer k p) ≤ cfg.half) :
    Tallied (s.setProducer k p) := by
  have hboth := both_setProducer (s := s) uncountedBy k p
  have hcounted := h.counted
  refine ⟨?_, hroom⟩
  show s.processBlocksCount + both uncountedBy (s.setProducer k p) = openRequests s.requests
  omega

theorem Tallied.request (h : Tallied s) {p q : BackgroundPhase} (hi : s.requests[i]? = some ⟨k, p⟩)
    (hopen : isOpen q = isOpen p) : Tallied (s.setRequest i k q) := by
  have hset := openRequests_set hi q
  rw [hopen] at hset
  have hcounted := h.counted
  have hroom := h.room
  refine ⟨?_, ?_⟩
  · show s.processBlocksCount + both uncountedBy s = openRequests (s.requests.set i ⟨k, q⟩)
    omega
  · show openRequests (s.requests.set i ⟨k, q⟩) + both plannedBy s ≤ cfg.half
    omega

theorem Tallied.complete (h : Tallied s) {q : BackgroundPhase}
    (hi : s.requests[i]? = some ⟨k, .passed⟩) (hq : isOpen q = false) {count : Nat}
    (hcount : count + 1 = s.processBlocksCount) :
    Tallied ((s.setCount count).setRequest i k q) := by
  have hset := openRequests_set hi q
  rw [hq] at hset
  simp only [isOpen, Bool.toNat_true, Bool.toNat_false, Nat.add_zero] at hset
  have hcounted := h.counted
  have hroom := h.room
  refine ⟨?_, ?_⟩
  · show count + both uncountedBy s = openRequests (s.requests.set i ⟨k, q⟩)
    omega
  · show openRequests (s.requests.set i ⟨k, q⟩) + both plannedBy s ≤ cfg.half
    omega

theorem uncountedBy_more (left : Nat) : uncountedBy (.more left) = 0 := by
  cases left <;> rfl

theorem plannedBy_more (left : Nat) : plannedBy (.more left) = 0 := by
  cases left <;> rfl

def CounterFits (s : Background cfg) : Act → Prop
  | .complete _ => 0 < s.processBlocksCount
  | a => Ordered s a

def Awaited (s : Background cfg) : Prop :=
  ∀ k left, s.producers k = .counting left → ∃ j p, s.requests[j]? = some ⟨k, p⟩
    ∧ isOpen p = true ∧ k ∉ (s.requests.map BackgroundRequest.kind).drop (j + 1)

theorem Awaited.move (h : Awaited s) {p : Producer} (hp : uncountedBy p = 0) :
    Awaited (s.setProducer k p) := by
  intro k' left hk'
  rcases setProducer_cases hk' with ⟨-, rfl⟩ | ⟨-, hk'⟩
  · cases hp
  · exact h k' left hk'

theorem Awaited.request (h : Awaited s) (count : Nat) {p q : BackgroundPhase}
    (hi : s.requests[i]? = some ⟨k, p⟩)
    (hopen : isOpen p = true → isOpen q = true ∨ WasCounted s i) :
    Awaited ((s.setCount count).setRequest i k q) := by
  intro k' left hk'
  obtain ⟨j, p', hj, hp', hlast⟩ := h k' left hk'
  have hkinds : (s.requests.set i ⟨k, q⟩).map BackgroundRequest.kind
      = s.requests.map BackgroundRequest.kind := map_set_eq hi rfl
  by_cases hij : i = j
  · subst hij
    obtain ⟨rfl, rfl⟩ : k = k' ∧ p = p' := by simpa using hi.symm.trans hj
    have hlt := lt_of_getElem? hi
    refine ⟨i, q, getElem?_set_self hlt, (hopen hp').resolve_right fun hcounted => ?_, ?_⟩
    · have hk : s.producers k = .counting left := hk'
      rcases hcounted _ hi with huncounted | hmem
      · exact absurd huncounted (by simp [hk, uncountedBy])
      · exact hlast hmem
    · show k ∉ ((s.requests.set i ⟨k, q⟩).map BackgroundRequest.kind).drop (i + 1)
      rwa [hkinds]
  · refine ⟨j, p', (getElem?_set_ne hij).trans hj, hp', ?_⟩
    show k' ∉ ((s.requests.set i ⟨k, q⟩).map BackgroundRequest.kind).drop (j + 1)
    rwa [hkinds]

def openOf (k : BackgroundKind) (requests : List BackgroundRequest) : Nat :=
  requests.countP fun r => decide (r.kind = k) && isOpen r.phase

theorem openRequests_eq (requests : List BackgroundRequest) :
    openRequests requests = openOf .demote requests + openOf .flush requests := by
  unfold openRequests openOf
  induction requests with
  | nil => rfl
  | cons r requests ih =>
    obtain ⟨kind, phase⟩ := r
    cases kind <;> simp [countP_cons, ih] <;> omega

theorem openOf_pos {requests : List BackgroundRequest} {p : BackgroundPhase}
    (hi : requests[i]? = some ⟨k, p⟩) (hp : isOpen p = true) : 0 < openOf k requests :=
  countP_pos_iff.mpr ⟨⟨k, p⟩, mem_of_getElem? hi, by simp [hp]⟩

theorem Awaited.uncountedBy_le (h : Awaited s) (k : BackgroundKind) :
    uncountedBy (s.producers k) ≤ openOf k s.requests := by
  cases hk : s.producers k with
  | counting left =>
    obtain ⟨j, p, hj, hp, -⟩ := h k left hk
    exact openOf_pos hj hp
  | idle | testing | drowsy | asleep | enqueuing => exact Nat.zero_le _

theorem Awaited.uncountedBy_lt (h : Awaited s) {p : BackgroundPhase}
    (hi : s.requests[i]? = some ⟨k, p⟩) (hp : isOpen p = true) (hcounted : WasCounted s i) :
    uncountedBy (s.producers k) < openOf k s.requests := by
  rcases hcounted _ hi with hzero | hmem
  · exact hzero ▸ openOf_pos hi hp
  · cases hk : s.producers k with
    | counting left =>
      obtain ⟨j, p', hj, hp', hlast⟩ := h k left hk
      have hij : i ≠ j := fun heq => hlast (heq ▸ hmem)
      have hset := countP_set_add
        (fun r : BackgroundRequest => decide (r.kind = k) && isOpen r.phase) ⟨k, .completed⟩ hi
      have hrest := openOf_pos ((getElem?_set_ne (a := ⟨k, .completed⟩) hij).trans hj) hp'
      have hclosed : isOpen .completed = false := rfl
      simp only [hp, hclosed, decide_true, Bool.and_true, Bool.and_false, Bool.toNat_true,
        Bool.toNat_false, Nat.add_zero] at hset
      show 1 < openOf k s.requests
      unfold openOf at hrest ⊢
      omega
    | idle | testing | drowsy | asleep | enqueuing => exact openOf_pos hi hp

/-- **A request that has been counted is still in the counter.** -/
theorem Tallied.count_pos (h : Tallied s) (hawaited : Awaited s) {p : BackgroundPhase}
    (hi : s.requests[i]? = some ⟨k, p⟩) (hp : isOpen p = true) (hcounted : WasCounted s i) :
    0 < s.processBlocksCount := by
  have htally := h.counted
  have hlt := hawaited.uncountedBy_lt hi hp hcounted
  have hle := fun k => hawaited.uncountedBy_le k
  rw [openRequests_eq] at htally
  unfold both at htally
  cases k with
  | demote => have hother := hle .flush; omega
  | flush => have hother := hle .demote; omega

theorem wake_eq_counting {p : Producer} (h : p.wake = .counting left) : p = .counting left := by
  cases p with
  | asleep _ => cases h
  | idle | testing | drowsy | enqueuing | counting => exact h

theorem Ordered.counterFits (hok : Ordered s a) (h : Tallied s) (hawaited : Awaited s)
    (hs : s.step a = some s') : CounterFits s a := by
  cases step_cases hs with
  | complete hi _ => exact h.count_pos hawaited hi rfl hok
  | start _ | pass _ _ | wait _ _ | sleep _ | wakeUp _ | enqueue _ | count _ _ | cancel _
  | cancelled _ _ | skip _ | notify _ => exact hok

theorem awaited_step (h : Awaited s) (hok : Ordered s a) (hs : s.step a = some s') :
    Awaited s' := by
  cases step_cases hs with
  | start _ => exact h.move (uncountedBy_more _)
  | pass _ _ | wait _ _ | sleep _ | wakeUp _ => exact h.move rfl
  | @enqueue k left hk =>
    intro k' left' hk'
    show ∃ j p, (s.pushRequest k).requests[j]? = some ⟨k', p⟩ ∧ isOpen p = true
      ∧ k' ∉ ((s.pushRequest k).requests.map BackgroundRequest.kind).drop (j + 1)
    unfold pushRequest
    rcases setProducer_cases hk' with ⟨rfl, -⟩ | ⟨hne, hk'⟩
    · exact ⟨s.requests.length, .queued, by simp, rfl, by simp [drop_eq_nil_of_le]⟩
    · obtain ⟨j, p, hj, hp, hlast⟩ := h k' left' hk'
      have hlt := lt_of_getElem? hj
      refine ⟨j, p, (getElem?_append_left hlt).trans hj, hp, ?_⟩
      rw [map_append, drop_append_of_le_length (by rwa [length_map])]
      simpa [hne] using hlast
  | @count k left count hk _ => exact Awaited.move (s := s.setCount count) h (uncountedBy_more _)
  | @cancel i hi => exact h.request s.processBlocksCount hi fun _ => .inl rfl
  | @cancelled i hi _ => exact h.request s.processBlocksCount hi fun _ => .inl rfl
  | @skip i k hi => exact h.request s.processBlocksCount hi fun _ => .inl rfl
  | @complete i count k hi _ => exact h.request count hi fun _ => .inr hok
  | @notify i k hi =>
    have hreq : Awaited (s.setRequest i k .completed) :=
      h.request s.processBlocksCount hi fun hp => absurd hp (by decide)
    intro k' left' hk'
    rcases setProducer_cases hk' with ⟨rfl, hp⟩ | ⟨-, hk'⟩
    · -- a thread that is about to count is not woken
      exact hreq k' left' (wake_eq_counting hp)
    · exact hreq k' left' hk'

theorem tallied_step (h : Tallied s) (hok : CounterFits s a) (hs : s.step a = some s') :
    Tallied s' := by
  have hcounted := h.counted
  have hroom := h.room
  have hhalf := half_lt cfg
  -- a thread that goes on without having anything planned needs no room
  have hnone : ∀ {k p}, plannedBy p = 0 →
      openRequests s.requests + both plannedBy (s.setProducer k p) ≤ cfg.half := by
    intro k p hp
    have hboth := both_setProducer (s := s) plannedBy k p
    omega
  cases step_cases hs with
  | @start k left hk =>
    exact h.move (by rw [hk, uncountedBy_more]; rfl) (hnone (plannedBy_more left))
  | @pass k left hk hlt =>
    refine h.move (by rw [hk]; rfl) ?_
    have hfits := hok hlt
    have hboth := both_setProducer (s := s) plannedBy k (.enqueuing left)
    rw [hk] at hboth
    simp only [plannedBy, Nat.add_zero] at hboth
    omega
  | @wait k left hk _ => exact h.move (by rw [hk]; rfl) (hnone rfl)
  | @sleep k left hk => exact h.move (by rw [hk]; rfl) (hnone rfl)
  | @wakeUp k left hk => exact h.move (by rw [hk]; rfl) (hnone rfl)
  | @enqueue k left hk =>
    have hu := both_setProducer (s := s) uncountedBy k (.counting left)
    have hp := both_setProducer (s := s) plannedBy k (.counting left)
    rw [hk] at hu hp
    simp only [uncountedBy, plannedBy, Nat.add_zero] at hu hp
    refine ⟨?_, ?_⟩
    · show s.processBlocksCount + both uncountedBy (s.setProducer k (.counting left))
        = openRequests (s.requests ++ _)
      rw [openRequests_enqueue]
      omega
    · show openRequests (s.requests ++ _) + both plannedBy (s.setProducer k (.counting left))
        ≤ cfg.half
      rw [openRequests_enqueue]
      omega
  | @count k left count hk hcount =>
    have hu := both_setProducer (s := s) uncountedBy k (.more (left - 1))
    rw [hk, uncountedBy_more] at hu
    simp only [uncountedBy, Nat.add_zero] at hu
    refine ⟨?_, hnone (plannedBy_more _)⟩
    show count + both uncountedBy (s.setProducer k (.more (left - 1))) = openRequests s.requests
    rw [incr64_eq (by omega)] at hcount
    omega
  | @cancel i hi => exact h.request hi rfl
  | @cancelled i hi _ => exact h.request hi rfl
  | @skip i k hi => exact h.request hi rfl
  | @complete i count k hi hcount =>
    have hpos : 0 < s.processBlocksCount := hok
    rw [decr64_eq hpos (by omega)] at hcount
    refine h.complete hi ?_ (by omega)
    split <;> rfl
  | @notify i k hi =>
    have hreq : Tallied (s.setRequest i k .completed) := h.request hi rfl
    have hwake : uncountedBy (s.producers k).wake = uncountedBy (s.producers k)
        ∧ plannedBy (s.producers k).wake = plannedBy (s.producers k) := by
      cases s.producers k <;> exact ⟨rfl, rfl⟩
    refine hreq.move hwake.1 ?_
    have hboth :=
      both_setProducer (s := s.setRequest i k .completed) plannedBy k (s.producers k).wake
    have hroom' := hreq.room
    rw [hwake.2] at hboth
    have hsame : plannedBy ((s.setRequest i k .completed).producers k)
        = plannedBy (s.producers k) := rfl
    omega

/-! ## Sleep -/

def UnderWay (k : BackgroundKind) (requests : List BackgroundRequest) : Prop :=
  ∃ r ∈ requests, r.kind = k ∧ r.phase ≠ .completed

instance (k : BackgroundKind) (requests : List BackgroundRequest) :
    Decidable (UnderWay k requests) :=
  inferInstanceAs (Decidable (∃ r ∈ requests, _))

def SleepsHeard (s : Background cfg) : Act → Prop
  | .sleep k => UnderWay k s.requests
  | _ => True

instance (s : Background cfg) : ∀ a, Decidable (SleepsHeard s a)
  | .sleep k => inferInstanceAs (Decidable (UnderWay k s.requests))
  | .start _ _ | .test _ | .wakeUp _ | .enqueue _ | .count _ | .cancel _ | .cancelled _ | .skip _
  | .complete _ | .notify _ => inferInstanceAs (Decidable True)

/-- A step that keeps the counter in order and does not sleep for ever. -/
def Orderly (s : Background cfg) (a : Act) : Prop := Ordered s a ∧ SleepsHeard s a

instance (s : Background cfg) (a : Act) : Decidable (Orderly s a) :=
  inferInstanceAs (Decidable (_ ∧ _))

def Heard (s : Background cfg) : Prop :=
  ∀ k left, s.producers k = .asleep left → UnderWay k s.requests

theorem UnderWay.set {requests : List BackgroundRequest} {k' : BackgroundKind}
    {p q : BackgroundPhase} (h : UnderWay k requests) (hi : requests[i]? = some ⟨k', p⟩)
    (hq : k' = k → q ≠ .completed) :
    UnderWay k (requests.set i ⟨k', q⟩) := by
  obtain ⟨r, hr, hkind, hphase⟩ := h
  obtain ⟨j, hj⟩ := mem_iff_getElem?.mp hr
  by_cases hij : i = j
  · subst hij
    rw [hi] at hj
    cases hj
    have hlt := lt_of_getElem? hi
    exact ⟨⟨k', q⟩, mem_of_getElem? (getElem?_set_self hlt), hkind, hq hkind⟩
  · exact ⟨r, mem_of_getElem? ((getElem?_set_ne hij).trans hj), hkind, hphase⟩

theorem Heard.move (h : Heard s) {p : Producer} (hp : ∀ left, p ≠ .asleep left) :
    Heard (s.setProducer k p) := by
  intro k' left hk'
  rcases setProducer_cases hk' with ⟨-, hpk⟩ | ⟨-, hk'⟩
  · exact absurd hpk (hp left)
  · exact h k' left hk'

theorem Heard.request (h : Heard s) {p q : BackgroundPhase} (hi : s.requests[i]? = some ⟨k, p⟩)
    (hq : q ≠ .completed) (count : Nat) : Heard ((s.setCount count).setRequest i k q) :=
  fun k' left hk' => (h k' left hk').set hi fun _ => hq

theorem more_ne_asleep (n left : Nat) : Producer.more n ≠ .asleep left := by
  cases n <;> simp [Producer.more]

theorem heard_step (h : Heard s) (htally : Tallied s) (hawaited : Awaited s) (hok : Orderly s a)
    (hs : s.step a = some s') : Heard s' := by
  obtain ⟨hordered, hsleep⟩ := hok
  cases step_cases hs with
  | start _ => exact h.move (more_ne_asleep _)
  | pass _ _ | wait _ _ | wakeUp _ => exact h.move (by simp)
  | @sleep k left hk =>
    intro k' left' hk'
    rcases setProducer_cases hk' with ⟨rfl, -⟩ | ⟨-, hk'⟩
    · exact hsleep
    · exact h k' left' hk'
  | @enqueue k left hk =>
    intro k' left' hk'
    have hold : UnderWay k' s.requests := h.move (p := .counting left) (by simp) k' left' hk'
    obtain ⟨r, hr, hrest⟩ := hold
    exact ⟨r, mem_append_left _ hr, hrest⟩
  | @count k left count hk _ =>
    intro k' left' hk'
    exact h.move (more_ne_asleep (left - 1)) k' left' hk'
  | @cancel i hi => exact h.request hi (by simp) s.processBlocksCount
  | @cancelled i hi _ => exact h.request hi (by simp) s.processBlocksCount
  | @skip i k hi => exact h.request hi (by simp) s.processBlocksCount
  | @complete i count k hi hcount =>
    -- the counter is within the limit, so the completion notifies
    have hpos := htally.count_pos hawaited hi rfl hordered
    have hcounted := htally.counted
    have hroom := htally.room
    have hhalf := half_lt cfg
    rw [decr64_eq hpos (by omega)] at hcount
    rw [if_pos (by omega)]
    exact h.request hi (by simp) count
  | @notify i k hi =>
    -- its own thread is awake now, and the other one does not depend on it
    intro k' left' hk'
    rcases setProducer_cases hk' with ⟨-, hp⟩ | ⟨hne, hk'⟩
    · cases hold : s.producers k <;> rw [hold] at hp <;> cases hp
    · exact (h k' left' hk').set hi (fun hkk => absurd hkk.symm hne)

/-! ## Every run -/

theorem orderly_reachable (h : Reachable step Orderly (new cfg) s) :
    Tallied s ∧ Awaited s ∧ Heard s := by
  refine h.invariant (I := fun s => Tallied s ∧ Awaited s ∧ Heard s)
    ⟨tallied_new cfg, fun _ _ hk => absurd hk (by simp [new]),
      fun _ _ hk => absurd hk (by simp [new])⟩ fun s a s' hinv hok hs => ?_
  obtain ⟨htally, hawaited, hheard⟩ := hinv
  exact ⟨tallied_step htally (hok.1.counterFits htally hawaited hs) hs,
    awaited_step hawaited hok.1 hs, heard_step hheard htally hawaited hok hs⟩

/-- Asleep although there is room, with nothing in flight and no notification under way. -/
def Forgotten (s : Background cfg) (k : BackgroundKind) : Prop :=
  (∃ left, s.producers k = .asleep left) ∧ s.processBlocksCount < cfg.half
    ∧ (∀ r ∈ s.requests, isOpen r.phase = false)
    ∧ ∀ r ∈ s.requests, r.kind = k → r.phase ≠ .notifying

/-- What the throttle is for. -/
structure ThrottleLaws (s : Background cfg) : Prop where
  /-- The counter is what is in flight, less what is about to be counted: it never wraps. -/
  counted : s.processBlocksCount + both uncountedBy s = openRequests s.requests
  atMost : openRequests s.requests ≤ cfg.half
  notForgotten : ∀ k, ¬ Forgotten s k

/-- **In an orderly run the background work is throttled.** -/
theorem background_throttled (h : Reachable step Orderly (new cfg) s) : ThrottleLaws s := by
  obtain ⟨htally, -, hheard⟩ := orderly_reachable h
  refine ⟨htally.counted, Nat.le_trans (Nat.le_add_right _ _) htally.room, ?_⟩
  rintro k ⟨⟨left, hk⟩, -, hclosed, hnot⟩
  obtain ⟨r, hr, hkind, hphase⟩ := hheard k left hk
  have hopen := hclosed r hr
  cases hp : r.phase with
  | completed => exact hphase hp
  | notifying => exact hnot r hr hkind hp
  | queued | locking | passed =>
    rw [hp] at hopen
    cases hopen

/--
Both threads have a request in flight, and there is room for two. The eviction loop sleeps, and
is notified when its own request is completed.
-/
theorem background_throttled_both : ∃ s : Background ⟨4, by decide, by decide⟩,
    Reachable step Orderly (new _) s ∧ s.producers .demote = .enqueuing 1
      ∧ s.requests = [⟨.demote, .completed⟩, ⟨.flush, .queued⟩] ∧ ThrottleLaws s := by
  have hrun : (run step Orderly (new ⟨4, by decide, by decide⟩)
      [.start .demote 2, .test .demote, .enqueue .demote, .start .flush 1, .count .demote,
        .test .flush, .enqueue .flush, .count .flush, .test .demote, .sleep .demote, .skip 0,
        .complete 0, .notify 0, .test .demote]).map
      (fun s => decide (s.producers .demote = .enqueuing 1
        ∧ s.requests = [⟨.demote, .completed⟩, ⟨.flush, .queued⟩])) = some true := by decide +kernel
  obtain ⟨s, hs, hk, hrequests⟩ := Reachable.of_run_decide hrun
  exact ⟨s, hs, hk, hrequests, background_throttled hs⟩

/--
Without that, with room for one request. A request is completed before it is counted, and the
counter wraps; both threads find room, and two requests are in flight; the eviction loop goes to
sleep after its request has notified; and it sleeps while the only request is a FLUSH.
-/
theorem background_not_throttled :
    (∃ s : Background ⟨2, by decide, by decide⟩,
      Reachable step (fun _ _ => True) (new _) s ∧ s.processBlocksCount = 2 ^ 64 - 1)
    ∧ (∃ s : Background ⟨2, by decide, by decide⟩,
      Reachable step (fun _ _ => True) (new _) s ∧ openRequests s.requests = 2)
    ∧ (∃ s : Background ⟨2, by decide, by decide⟩,
      Reachable step (fun _ _ => True) (new _) s ∧ Forgotten s .demote
        ∧ s.requests = [⟨.demote, .completed⟩])
    ∧ ∃ s : Background ⟨2, by decide, by decide⟩,
      Reachable step (fun _ _ => True) (new _) s ∧ Forgotten s .demote
        ∧ s.requests = [⟨.flush, .completed⟩] := by
  have hforgotten : ∀ {s : Background ⟨2, by decide, by decide⟩} {k : BackgroundKind},
      s.producers .demote = .asleep 1 ∧ s.processBlocksCount = 0 ∧ s.requests = [⟨k, .completed⟩] →
      Forgotten s .demote ∧ s.requests = [⟨k, .completed⟩] := by
    rintro s k ⟨hk, hcount, hrequests⟩
    refine ⟨⟨⟨1, hk⟩, by rw [hcount]; decide, ?_, ?_⟩, hrequests⟩
    · simp [hrequests, isOpen]
    · simp [hrequests]
  refine ⟨?_, ?_, ?_, ?_⟩
  · have hrun : (run step (fun _ _ => True) (new ⟨2, by decide, by decide⟩)
        [.start .demote 1, .test .demote, .enqueue .demote, .skip 0, .complete 0]).map
        (fun s => decide (s.processBlocksCount = 2 ^ 64 - 1)) = some true := by decide +kernel
    exact Reachable.of_run_decide hrun
  · have hrun : (run step (fun _ _ => True) (new ⟨2, by decide, by decide⟩)
        [.start .demote 1, .start .flush 1, .test .demote, .test .flush, .enqueue .demote,
          .enqueue .flush]).map (fun s => decide (openRequests s.requests = 2)) = some true := by
      decide +kernel
    exact Reachable.of_run_decide hrun
  · have hrun : (run step (fun _ _ => True) (new ⟨2, by decide, by decide⟩)
        [.start .demote 2, .test .demote, .enqueue .demote, .count .demote, .test .demote, .skip 0,
          .complete 0, .notify 0, .sleep .demote]).map
        (fun s => decide (s.producers .demote = .asleep 1 ∧ s.processBlocksCount = 0
          ∧ s.requests = [⟨.demote, .completed⟩])) = some true := by decide +kernel
    obtain ⟨s, hs, htest⟩ := Reachable.of_run_test hrun
    exact ⟨s, hs, hforgotten (of_decide_eq_true htest)⟩
  · have hrun : (run step (fun _ _ => True) (new ⟨2, by decide, by decide⟩)
        [.start .flush 1, .test .flush, .enqueue .flush, .count .flush, .start .demote 1,
          .test .demote, .sleep .demote, .cancel 0, .cancelled 0, .complete 0, .notify 0]).map
        (fun s => decide (s.producers .demote = .asleep 1 ∧ s.processBlocksCount = 0
          ∧ s.requests = [⟨.flush, .completed⟩])) = some true := by decide +kernel
    obtain ⟨s, hs, htest⟩ := Reachable.of_run_decide hrun
    exact ⟨s, hs, hforgotten htest⟩

end HDCS.Proof
