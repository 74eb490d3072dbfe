import HDCS.Core.FlushAll

/-!
# `flush_all` and `promote_all` are barriers

A request that is completed before it is counted takes the count below zero, and for a
moment `flush_all_blocks_count` is almost `2 ^ 64`. Nobody looks at it in that moment, since
the call that is about to count has the lock. So whoever looks finds exactly the number of
requests in flight (`FlushAllInv.exact`), those of other calls included, and a call that
finds none returns after all of them.

That a call returns is another matter. A notification that comes when its call has looked at the
counter and is not on the condition variable yet is lost. And one that is due is not made if
the counter is almost `2 ^ 64` at that moment. If it was the last one, the call sleeps for good. In
a run without the two (`NoneMissed`), whoever waits has a request in flight or a notification ahead
of them (`SoonWoken`), and so all calls return, without any wake-up that nobody has caused.
-/

namespace HDCS.Proof

open Lib FlushAll Lib.Machine List

/-! ## Phases -/

section Phases

def isEnqueuing : CallPhase → Bool
  | .enqueuing _ => true
  | _ => false

def isCounting : CallPhase → Bool
  | .counting _ => true
  | _ => false

def isDrowsy : CallPhase → Bool
  | .drowsy _ => true
  | _ => false

def isAsleep : CallPhase → Bool
  | .asleep _ => true
  | _ => false

def roundOf : CallPhase → Option Nat
  | .testing (.room block) | .drowsy (.room block) | .asleep (.room block) | .woken (.room block)
  | .enqueuing block | .counting block => some block
  | _ => none

def enqueued (blocksCount : Nat) : CallPhase → Nat
  | .entering => 0
  | .counting block => block + 1
  | p => (roundOf p).getD blocksCount

def awaits : CallPhase → Option Await
  | .testing w | .drowsy w | .asleep w | .woken w => some w
  | _ => none

def awaitedRound : Await → Option Nat
  | .room block => some block
  | .drained => none

theorem isCounting_of_awaits {p : CallPhase} {w : Await} (h : awaits p = some w) :
    isCounting p = false := by
  cases p <;> first | rfl | cases h

theorem awaits_of_isEnqueuing {p : CallPhase} (h : isEnqueuing p = true) : awaits p = none := by
  cases p <;> first | rfl | cases h

theorem roundOf_of_awaits {p : CallPhase} {w : Await} (h : awaits p = some w) :
    roundOf p = awaitedRound w := by
  cases p <;> cases h <;> cases w <;> rfl

theorem enqueued_of_awaits {n : Nat} {p : CallPhase} {w : Await} (h : awaits p = some w) :
    enqueued n p = (awaitedRound w).getD n := by
  cases p <;> cases h <;> cases w <;> rfl

variable (p : CallPhase) (n : Nat)

@[simp] theorem holds_wake : p.wake.holds = p.holds := by
  cases p <;> rfl

@[simp] theorem isEnqueuing_wake : isEnqueuing p.wake = isEnqueuing p := by
  cases p <;> rfl

@[simp] theorem isCounting_wake : isCounting p.wake = isCounting p := by
  cases p <;> rfl

@[simp] theorem roundOf_wake : roundOf p.wake = roundOf p := by
  cases p with
  | asleep w => cases w <;> rfl
  | _ => rfl

@[simp] theorem enqueued_wake : enqueued n p.wake = enqueued n p := by
  cases p with
  | asleep w => cases w <;> rfl
  | _ => rfl

@[simp] theorem wake_eq_returned : p.wake = .returned ↔ p = .returned := by
  cases p <;> simp [CallPhase.wake]

theorem holds_of_isCounting (h : isCounting p = true) : p.holds = true := by
  cases p with
  | counting block => rfl
  | _ => cases h

theorem holds_of_isDrowsy (h : isDrowsy p = true) : p.holds = true := by
  cases p with
  | drowsy w => rfl
  | _ => cases h

theorem isCounting_of_isDrowsy (h : isDrowsy p = true) : isCounting p = false := by
  cases p with
  | drowsy w => rfl
  | _ => cases h

theorem isAsleep_wake : isAsleep p.wake = false := by
  cases p <;> rfl

theorem isDrowsy_wake : isDrowsy p.wake = isDrowsy p := by
  cases p <;> rfl

theorem holds_of_isEnqueuing (h : isEnqueuing p = true) : p.holds = true := by
  cases p with
  | enqueuing block => rfl
  | _ => cases h

end Phases

/-! ## Requests -/

def inFlight (requests : List AllRequest) : Nat := requests.countP fun r => r.phase = .inFlight

/-- The blocks for which a call has enqueued a request, in order. -/
def blocksOf (c : Nat) (requests : List AllRequest) : List Nat :=
  requests.filterMap fun r => if r.call = c then some r.block else none

section Requests

variable {requests : List AllRequest} {i : Nat} {r : AllRequest}

theorem inFlight_pos (hr : r ∈ requests) (hphase : r.phase = .inFlight) : 0 < inFlight requests :=
  countP_pos_iff.mpr ⟨r, hr, decide_eq_true hphase⟩

theorem inFlight_concat (hphase : r.phase = .inFlight) :
    inFlight (requests ++ [r]) = inFlight requests + 1 := by
  unfold inFlight
  rw [countP_append, countP_singleton, if_pos (decide_eq_true hphase)]

theorem blocksOf_concat (c : Nat) :
    blocksOf c (requests ++ [r]) = blocksOf c requests ++ if r.call = c then [r.block] else [] := by
  unfold blocksOf
  rw [filterMap_append]
  by_cases hc : r.call = c <;> simp [hc]

theorem blocksOf_set (c : Nat) (p : AllRequestPhase) (hr : requests[i]? = some r) :
    blocksOf c (requests.set i { r with phase := p }) = blocksOf c requests := by
  have hid : ∀ l : List AllRequest, blocksOf c l
      = (l.map fun r => if r.call = c then some r.block else none).filterMap id := by
    intro l
    rw [filterMap_map]
    rfl
  rw [hid, hid, map_set_eq (b := { r with phase := p }) hr rfl]

theorem inFlight_complete (hr : requests[i]? = some r) (hphase : r.phase = .inFlight) :
    inFlight (requests.set i { r with phase := .completed }) + 1 = inFlight requests := by
  have hadd := countP_set_add (fun r : AllRequest => decide (r.phase = .inFlight))
    { r with phase := .completed } hr
  simpa [inFlight, hphase] using hadd

theorem inFlight_set {p : AllRequestPhase} (hr : requests[i]? = some r)
    (hphase : r.phase ≠ .inFlight) (hp : p ≠ .inFlight) :
    inFlight (requests.set i { r with phase := p }) = inFlight requests :=
  countP_set_eq _ hr (by simp [hphase, hp])

end Requests

/-! ## The invariant -/

variable {cfg : FlushAllConfig}

theorem holds_loopHead (block : Nat) : (loopHead cfg block).holds = true := by
  unfold loopHead
  split <;> rfl

theorem isCounting_loopHead (block : Nat) : isCounting (loopHead cfg block) = false := by
  unfold loopHead
  split <;> rfl

theorem isEnqueuing_loopHead (block : Nat) : isEnqueuing (loopHead cfg block) = false := by
  unfold loopHead
  split <;> rfl

theorem loopHead_ne_returned (block : Nat) : loopHead cfg block ≠ .returned := by
  unfold loopHead
  split <;> simp

theorem enqueued_loopHead {block : Nat} (h : block ≤ cfg.blocksCount) :
    enqueued cfg.blocksCount (loopHead cfg block) = block := by
  unfold loopHead
  split
  · rfl
  · show cfg.blocksCount = block
    omega

theorem roundOf_loopHead {block b : Nat} (h : roundOf (loopHead cfg block) = some b) :
    b < cfg.blocksCount := by
  unfold loopHead at h
  split at h
  · rename_i hlt
    cases h
    exact hlt
  · cases h

structure FlushAllInv (s : FlushAll cfg) : Prop where
  /-- One call has the lock, if it is taken. -/
  lock : s.calls.countP (fun c => c.phase.holds) = s.locked.toNat
  small : s.flushAllBlocksCount < 2 ^ 64
  /-- What the counter lacks is about to be counted. -/
  counted : (s.flushAllBlocksCount + s.calls.countP fun c => isCounting c.phase) % 2 ^ 64
    = inFlight s.requests
  /-- Who is about to enqueue has room for it. -/
  room : inFlight s.requests + (s.calls.countP fun c => isEnqueuing c.phase) ≤ cfg.processThreadsNum
  owner : ∀ r ∈ s.requests, r.call < s.calls.length
  /-- A call has enqueued the blocks before the one it is at. -/
  blocks : ∀ c call, s.calls[c]? = some call →
    blocksOf c s.requests = List.range (enqueued cfg.blocksCount call.phase)
  inside : ∀ call ∈ s.calls, ∀ block, roundOf call.phase = some block → block < cfg.blocksCount
  returned : ∀ c call, s.calls[c]? = some call → call.phase = .returned →
    ∀ r ∈ s.requests, r.call = c → r.phase ≠ .inFlight

theorem flushAllInv_new (cfg : FlushAllConfig) : FlushAllInv (new cfg) where
  lock := rfl
  small := Nat.two_pow_pos 64
  counted := rfl
  room := Nat.zero_le _
  owner := fun _ hr => absurd hr not_mem_nil
  blocks := fun _ _ hc => absurd hc (by simp [new])
  inside := fun _ hc => absurd hc not_mem_nil
  returned := fun _ _ hc => absurd hc (by simp [new])

variable {s s' : FlushAll cfg} {c i : Nat} {call : AllCall} {r : AllRequest}

theorem FlushAllInv.alone (h : FlushAllInv s) (hc : s.calls[c]? = some call)
    (hhold : call.phase.holds = true) {p : CallPhase → Bool}
    (hp : ∀ q, p q = true → q.holds = true) (hnot : p call.phase = false) :
    (s.calls.countP fun c => p c.phase) = 0 := by
  have hlt := countP_lt_of_getElem? (p := fun c : AllCall => p c.phase)
    (q := fun c : AllCall => c.phase.holds) (fun x hx => hp _ hx) hc hnot hhold
  have hone := Bool.toNat_le s.locked
  have hlock := h.lock
  omega

/-- **Whoever looks at the counter finds the number of requests in flight.** -/
theorem FlushAllInv.exact (h : FlushAllInv s) (hc : s.calls[c]? = some call)
    (hhold : call.phase.holds = true) (hnot : isCounting call.phase = false) :
    s.flushAllBlocksCount = inFlight s.requests := by
  have hcounted := h.counted
  rw [h.alone hc hhold holds_of_isCounting hnot, Nat.add_zero, Nat.mod_eq_of_lt h.small] at hcounted
  exact hcounted

theorem FlushAllInv.locked (h : FlushAllInv s) (hc : s.calls[c]? = some call)
    (hhold : call.phase.holds = true) : s.locked = true := by
  have hpos : 0 < s.calls.countP fun c => c.phase.holds :=
    countP_pos_iff.mpr ⟨call, mem_of_getElem? hc, hhold⟩
  rw [h.lock] at hpos
  exact Bool.toNat_eq_one.mp (Nat.le_antisymm (Bool.toNat_le _) hpos)

theorem FlushAllInv.sameRound (h : FlushAllInv s) (hc : s.calls[c]? = some call) {p : CallPhase}
    (hround : roundOf p = roundOf call.phase) :
    ∀ block, roundOf p = some block → block < cfg.blocksCount := by
  rw [hround]
  exact h.inside call (mem_of_getElem? hc)

/-! ### One step -/

theorem FlushAllInv.move (h : FlushAllInv s) (hc : s.calls[c]? = some call) {p : CallPhase}
    {locked lastBatch : Bool}
    (hlock : p.holds.toNat + s.locked.toNat = call.phase.holds.toNat + locked.toNat)
    (hcount : isCounting p = isCounting call.phase)
    (hroom : isEnqueuing p = true → inFlight s.requests
      + (s.calls.countP fun c => isEnqueuing c.phase) < cfg.processThreadsNum)
    (henqueued : enqueued cfg.blocksCount p = enqueued cfg.blocksCount call.phase)
    (hinside : ∀ block, roundOf p = some block → block < cfg.blocksCount)
    (hreturned : p = .returned → inFlight s.requests = 0) :
    @FlushAllInv cfg ({ s with locked := locked, lastBatch := lastBatch }.setPhase c call p) where
  lock := by
    have hadd := countP_set_add (fun c : AllCall => c.phase.holds) { call with phase := p } hc
    have hold := h.lock
    show (s.calls.set c _).countP _ = locked.toNat
    dsimp only at hadd
    omega
  small := h.small
  counted := by
    show (s.flushAllBlocksCount + (s.calls.set c _).countP _) % 2 ^ 64 = _
    rw [countP_set_eq (fun c : AllCall => isCounting c.phase) hc hcount]
    exact h.counted
  room := by
    have hadd := countP_set_add (fun c : AllCall => isEnqueuing c.phase) { call with phase := p } hc
    have hold := h.room
    show inFlight s.requests + (s.calls.set c _).countP _ ≤ cfg.processThreadsNum
    dsimp only at hadd
    cases henq : isEnqueuing p with
    | true =>
      have hlt := hroom henq
      rw [henq, Bool.toNat_true] at hadd
      omega
    | false =>
      rw [henq, Bool.toNat_false] at hadd
      omega
  owner := fun r hr => by
    show r.call < (s.calls.set c _).length
    rw [length_set]
    exact h.owner r hr
  blocks := fun c' call' hc' => by
    rcases getElem?_set_cases hc hc' with ⟨rfl, rfl⟩ | ⟨-, hc'⟩
    · exact (h.blocks c' call hc).trans (by rw [henqueued])
    · exact h.blocks c' call' hc'
  inside := forall_mem_set h.inside hinside
  returned := fun c' call' hc' hret r hr hcall => by
    rcases getElem?_set_cases hc hc' with ⟨rfl, rfl⟩ | ⟨-, hc'⟩
    · intro hphase
      have hpos : 0 < inFlight s.requests := inFlight_pos hr hphase
      rw [hreturned hret] at hpos
      exact absurd hpos (Nat.lt_irrefl 0)
    · exact h.returned c' call' hc' hret r hr hcall

theorem FlushAllInv.moveAwaiting (h : FlushAllInv s) (hc : s.calls[c]? = some call)
    {p : CallPhase} {w : Await} {locked lastBatch : Bool} (hphase : awaits call.phase = some w)
    (hp : awaits p = some w)
    (hlock : p.holds.toNat + s.locked.toNat = call.phase.holds.toNat + locked.toNat) :
    @FlushAllInv cfg ({ s with locked := locked, lastBatch := lastBatch }.setPhase c call p) := by
  refine h.move hc hlock ?_ ?_ ?_ (h.sameRound hc ?_) ?_
  · rw [isCounting_of_awaits hp, isCounting_of_awaits hphase]
  · exact fun henq => absurd hp (by rw [awaits_of_isEnqueuing henq]; simp)
  · rw [enqueued_of_awaits hp, enqueued_of_awaits hphase]
  · rw [roundOf_of_awaits hp, roundOf_of_awaits hphase]
  · rintro rfl
    cases hp

theorem FlushAllInv.newCall (h : FlushAllInv s) (ioType : IoType) :
    @FlushAllInv cfg { s with calls := s.calls ++ [⟨ioType, .entering⟩] } where
  lock := by
    show List.countP _ (s.calls ++ _) = _
    rw [countP_append]
    exact h.lock
  small := h.small
  counted := by
    show (s.flushAllBlocksCount + List.countP _ (s.calls ++ _)) % 2 ^ 64 = _
    rw [countP_append]
    exact h.counted
  room := by
    show _ + List.countP _ (s.calls ++ _) ≤ _
    rw [countP_append]
    exact h.room
  owner := fun r hr => by
    have hlt := h.owner r hr
    show r.call < (s.calls ++ _).length
    rw [length_append]
    omega
  blocks := fun c call hc => by
    rcases getElem?_concat_cases hc with hc | ⟨rfl, rfl⟩
    · exact h.blocks c call hc
    · -- nothing belongs to a call that has just begun
      refine filterMap_eq_nil_iff.mpr fun r hr => ?_
      rw [if_neg (Nat.ne_of_lt (h.owner r hr))]
  inside := fun call hc block hblock => by
    rcases mem_append.mp hc with hc | hc
    · exact h.inside call hc block hblock
    · rw [mem_singleton.mp hc] at hblock
      cases hblock
  returned := fun c call hc hret => by
    rcases getElem?_concat_cases hc with hc | ⟨-, rfl⟩
    · exact h.returned c call hc hret
    · cases hret

theorem FlushAllInv.enqueue (h : FlushAllInv s) (hc : s.calls[c]? = some call) {block : Nat}
    (hphase : call.phase = .enqueuing block) :
    @FlushAllInv cfg ({ s with
      requests := s.requests ++ [AllRequest.mk c call.ioType block .inFlight] }.setPhase c call
        (.counting block)) := by
  have henq := countP_set_add (fun c : AllCall => isEnqueuing c.phase)
    { call with phase := .counting block } hc
  have hcnt := countP_set_add (fun c : AllCall => isCounting c.phase)
    { call with phase := .counting block } hc
  simp only [hphase, show isEnqueuing (.enqueuing block) = true from rfl,
    show isEnqueuing (.counting block) = false from rfl,
    show isCounting (.enqueuing block) = false from rfl,
    show isCounting (.counting block) = true from rfl, Bool.toNat_true, Bool.toNat_false,
    Nat.add_zero] at henq hcnt
  have hroom := h.room
  have hcounted := h.counted
  refine ⟨?_, h.small, ?_, ?_, ?_, ?_, ?_, ?_⟩
  · show (s.calls.set c _).countP _ = _
    rw [countP_set_eq (fun c : AllCall => c.phase.holds) hc (by rw [hphase]; rfl)]
    exact h.lock
  · have hT := cfg.processThreadsNum_lt
    show (s.flushAllBlocksCount + (s.calls.set c _).countP _) % 2 ^ 64 = inFlight (s.requests ++ _)
    rw [inFlight_concat rfl]
    omega
  · show inFlight (s.requests ++ _) + (s.calls.set c _).countP _ ≤ _
    rw [inFlight_concat rfl]
    omega
  · intro r hr
    show r.call < (s.calls.set c _).length
    rw [length_set]
    rcases mem_append.mp hr with hr | hr
    · exact h.owner r hr
    · rw [mem_singleton.mp hr]
      exact lt_of_getElem? hc
  · intro c' call' hc'
    show blocksOf c' (s.requests ++ _) = _
    rw [blocksOf_concat]
    rcases getElem?_set_cases hc hc' with ⟨rfl, rfl⟩ | ⟨hne, hold⟩
    · rw [if_pos rfl, h.blocks c' call hc, hphase]
      exact range_succ.symm
    · rw [if_neg hne, append_nil]
      exact h.blocks c' call' hold
  · refine forall_mem_set h.inside fun b hb => h.inside call (mem_of_getElem? hc) b ?_
    rw [hphase]
    exact hb
  · intro c' call' hc' hret r hr hcall
    rcases getElem?_set_cases hc hc' with ⟨rfl, rfl⟩ | ⟨hne, hold⟩
    · cases hret
    · rcases mem_append.mp hr with hr | hr
      · exact h.returned c' call' hold hret r hr hcall
      · rw [mem_singleton.mp hr] at hcall
        exact absurd hcall hne

theorem FlushAllInv.count (h : FlushAllInv s) (hc : s.calls[c]? = some call) {block : Nat}
    (hphase : call.phase = .counting block) :
    @FlushAllInv cfg ({ s with flushAllBlocksCount := incr64 s.flushAllBlocksCount }.setPhase c call
      (loopHead cfg (block + 1))) := by
  have hlt : block < cfg.blocksCount :=
    h.inside call (mem_of_getElem? hc) block (by rw [hphase]; rfl)
  have hcnt := countP_set_add (fun c : AllCall => isCounting c.phase)
    { call with phase := loopHead cfg (block + 1) } hc
  simp only [hphase, isCounting_loopHead, show isCounting (.counting block) = true from rfl,
    Bool.toNat_true, Bool.toNat_false, Nat.add_zero] at hcnt
  refine ⟨?_, incr64_lt _, ?_, ?_, ?_, ?_, ?_, ?_⟩
  · show (s.calls.set c _).countP _ = _
    rw [countP_set_eq (fun c : AllCall => c.phase.holds) hc (by rw [holds_loopHead, hphase]; rfl)]
    exact h.lock
  · have hcounted := h.counted
    show (incr64 s.flushAllBlocksCount + (s.calls.set c _).countP _) % 2 ^ 64 = inFlight s.requests
    rw [← hcounted]
    unfold incr64
    omega
  · show _ + (s.calls.set c _).countP _ ≤ _
    rw [countP_set_eq (fun c : AllCall => isEnqueuing c.phase) hc
      (by rw [isEnqueuing_loopHead, hphase]; rfl)]
    exact h.room
  · intro r hr
    show r.call < (s.calls.set c _).length
    rw [length_set]
    exact h.owner r hr
  · intro c' call' hc'
    rcases getElem?_set_cases hc hc' with ⟨rfl, rfl⟩ | ⟨-, hold⟩
    · rw [enqueued_loopHead hlt]
      exact (h.blocks c' call hc).trans (by rw [hphase]; rfl)
    · exact h.blocks c' call' hold
  · exact forall_mem_set h.inside fun b hb => roundOf_loopHead hb
  · intro c' call' hc' hret
    rcases getElem?_set_cases hc hc' with ⟨rfl, rfl⟩ | ⟨-, hold⟩
    · exact absurd hret (loopHead_ne_returned _)
    · exact h.returned c' call' hold hret

theorem FlushAllInv.request (h : FlushAllInv s) (hr : s.requests[i]? = some r) {p : AllRequestPhase}
    (hp : p ≠ .inFlight) {blocksCount : Nat} (hsmall : blocksCount < 2 ^ 64)
    (hcounted : (blocksCount + s.calls.countP fun c => isCounting c.phase) % 2 ^ 64
      = inFlight (s.requests.set i { r with phase := p }))
    (hle : inFlight (s.requests.set i { r with phase := p }) ≤ inFlight s.requests) :
    @FlushAllInv cfg ({ s with flushAllBlocksCount := blocksCount }.setRequest i r p) where
  lock := h.lock
  small := hsmall
  counted := hcounted
  room := by
    have hroom := h.room
    show inFlight (s.requests.set i _) + List.countP _ s.calls ≤ _
    omega
  owner := forall_mem_set h.owner (h.owner r (mem_of_getElem? hr))
  blocks := fun c call hc => (blocksOf_set c p hr).trans (h.blocks c call hc)
  inside := h.inside
  returned := fun c call hc hret => forall_mem_set (h.returned c call hc hret) (fun _ => hp)

theorem FlushAllInv.complete (h : FlushAllInv s) (hr : s.requests[i]? = some r)
    (hphase : r.phase = .inFlight) :
    @FlushAllInv cfg ({ s with
      flushAllBlocksCount := decr64 s.flushAllBlocksCount }.setRequest i r .completed) := by
  have hone := inFlight_complete hr hphase
  have hcounted := h.counted
  have hroom := h.room
  have hT := cfg.processThreadsNum_lt
  refine h.request hr (by simp) (decr64_lt _) ?_ (by omega)
  unfold decr64
  omega

theorem FlushAllInv.notify (h : FlushAllInv s) (hr : s.requests[i]? = some r) {p : AllRequestPhase}
    (hphase : r.phase ≠ .inFlight) (hp : p ≠ .inFlight) (b : Bool) :
    FlushAllInv ((s.setRequest i r p).notifyIf b) := by
  have hsame := inFlight_set hr hphase hp
  have hnext := h.request hr hp h.small (by rw [hsame]; exact h.counted) (Nat.le_of_eq hsame)
  unfold notifyIf
  cases b with
  | false => exact hnext
  | true =>
    have hcount : ∀ q : CallPhase → Bool, (∀ p : CallPhase, q p.wake = q p) →
        (s.calls.map fun c => { c with phase := c.phase.wake }).countP (fun c => q c.phase)
          = s.calls.countP fun c => q c.phase := by
      intro q hq
      rw [countP_map]
      exact countP_congr fun c _ => by simp [hq]
    refine ⟨?_, hnext.small, ?_, ?_, ?_, ?_, ?_, ?_⟩
    · exact (hcount CallPhase.holds holds_wake).trans h.lock
    · show (s.flushAllBlocksCount + List.countP _ (s.calls.map _)) % 2 ^ 64 = _
      rw [hcount isCounting isCounting_wake]
      exact hnext.counted
    · show _ + List.countP _ (s.calls.map _) ≤ _
      rw [hcount isEnqueuing isEnqueuing_wake]
      exact hnext.room
    · intro r hr
      show r.call < (s.calls.map _).length
      rw [length_map]
      exact hnext.owner r hr
    · intro c call hc
      obtain ⟨call', hc', rfl⟩ := Option.map_eq_some_iff.mp (getElem?_map.symm.trans hc)
      rw [enqueued_wake]
      exact hnext.blocks c call' hc'
    · intro call hc
      obtain ⟨call', hc', rfl⟩ := mem_map.mp hc
      rw [roundOf_wake]
      exact hnext.inside call' hc'
    · intro c call hc hret
      obtain ⟨call', hc', rfl⟩ := Option.map_eq_some_iff.mp (getElem?_map.symm.trans hc)
      exact hnext.returned c call' hc' ((wake_eq_returned _).mp hret)

theorem flushAllInv_step {a : Act} (h : FlushAllInv s) (hs : s.step a = some s') :
    FlushAllInv s' := by
  cases step_cases hs with
  | @call ioType => exact h.newCall ioType
  | @enter c call hc hphase hlock =>
    refine h.move hc ?_ ?_ ?_ ?_ (fun _ => roundOf_loopHead) ?_
    · rw [holds_loopHead, hphase, hlock]; rfl
    · rw [isCounting_loopHead, hphase]; rfl
    · rw [isEnqueuing_loopHead]; exact nofun
    · rw [enqueued_loopHead (Nat.zero_le _), hphase]; rfl
    · exact fun hret => absurd hret (loopHead_ne_returned 0)
  | @relock c call w hc hphase hlock =>
    refine h.moveAwaiting hc (w := w) (by rw [hphase]; rfl) rfl ?_
    rw [hphase, hlock]; rfl
  | @room c block call hc hphase hpass =>
    have hhold : call.phase.holds = true := by rw [hphase]; rfl
    refine h.move hc ?_ ?_ (fun _ => ?_) ?_ (h.sameRound hc (by rw [hphase]; rfl)) nofun
    · rw [hphase]; rfl
    · rw [hphase]; rfl
    · rw [h.alone hc hhold holds_of_isEnqueuing (by rw [hphase]; rfl),
        ← h.exact hc hhold (by rw [hphase]; rfl)]
      exact hpass
    · rw [hphase]; rfl
  | @ret c call hc hphase hpass =>
    have hhold : call.phase.holds = true := by rw [hphase]; rfl
    refine h.move hc ?_ ?_ (fun h => absurd h (by simp [isEnqueuing])) ?_
      (fun b hb => absurd hb (by simp [roundOf])) (fun _ => ?_)
    · rw [hphase, h.locked hc hhold]; rfl
    · rw [hphase]; rfl
    · rw [hphase]; rfl
    · rw [← h.exact hc hhold (by rw [hphase]; rfl)]
      exact hpass
  | @wait c call w hc hphase _ =>
    refine h.moveAwaiting hc (w := w) (by rw [hphase]; rfl) rfl ?_
    rw [hphase]; rfl
  | @sleep c call w hc hphase =>
    have hhold : call.phase.holds = true := by rw [hphase]; rfl
    refine h.moveAwaiting hc (w := w) (by rw [hphase]; rfl) rfl ?_
    rw [hphase, h.locked hc hhold]; rfl
  | @wakeUp c call w hc hphase =>
    refine h.moveAwaiting hc (w := w) (by rw [hphase]; rfl) rfl ?_
    rw [hphase]; rfl
  | @enqueue c block call hc hphase => exact h.enqueue hc hphase
  | @count c block call hc hphase => exact h.count hc hphase
  | @finish c call hc hphase =>
    refine h.move hc ?_ ?_ (fun h => absurd h (by simp [isEnqueuing])) ?_
      (fun b hb => absurd hb (by simp [roundOf])) nofun
    · rw [hphase]; rfl
    · rw [hphase]; rfl
    · rw [hphase]; rfl
  | @complete i r hr hphase => exact h.complete hr hphase
  | @notifyRoom i r hr hphase => exact h.notify hr (by simp [hphase]) (by simp) _
  | @notifyDrained i r hr hphase => exact h.notify hr (by simp [hphase]) (by simp) _

/-! ## Every run -/

/-! ### No notification is missed -/

/--
A completion does not come to its tests while a call has just found the counter too large, and the
counter is zero by now; nor while a request has been completed before it was counted and a call
is asleep.
-/
def NoneMissed (s : FlushAll cfg) : Act → Prop
  | .notifyRoom _ | .notifyDrained _ =>
    (s.flushAllBlocksCount = 0 → ∀ call ∈ s.calls, isDrowsy call.phase = false)
      ∧ (cfg.processThreadsNum < s.flushAllBlocksCount →
        ∀ call ∈ s.calls, isAsleep call.phase = false)
  | _ => True

instance (s : FlushAll cfg) : ∀ a, Decidable (NoneMissed s a)
  | .notifyRoom _ | .notifyDrained _ => inferInstanceAs (Decidable (_ ∧ _))
  | .call _ | .lock _ | .test _ | .sleep _ | .wakeUp _ | .enqueue _ | .count _ | .finish _
  | .complete _ => inferInstanceAs (Decidable True)

def SomeoneWaits (s : FlushAll cfg) : Prop :=
  ∃ call ∈ s.calls, isDrowsy call.phase = true ∨ isAsleep call.phase = true

def SoonWoken (s : FlushAll cfg) : Prop :=
  SomeoneWaits s → 0 < inFlight s.requests ∨ (∃ r ∈ s.requests, r.phase = .completed)
    ∨ s.lastBatch = true ∧ ∃ r ∈ s.requests, r.phase = .tested

theorem soonWoken_new (cfg : FlushAllConfig) : SoonWoken (new cfg) :=
  fun ⟨_, hcall, _⟩ => absurd hcall not_mem_nil

theorem SoonWoken.move (h : SoonWoken s) (hc : s.calls[c]? = some call) {p : CallPhase}
    {locked lastBatch : Bool} {blocksCount : Nat} (hlast : s.lastBatch = true → lastBatch = true)
    (hp : isDrowsy p = true ∨ isAsleep p = true →
      isDrowsy call.phase = true ∨ 0 < inFlight s.requests) :
    @SoonWoken cfg ({ s with
      locked := locked
      flushAllBlocksCount := blocksCount
      lastBatch := lastBatch }.setPhase c call p) := by
  intro ⟨call', hmem, hwaits⟩
  have hold : SomeoneWaits s ∨ 0 < inFlight s.requests := by
    rcases mem_or_eq_of_mem_set hmem with hmem | rfl
    · exact Or.inl ⟨call', hmem, hwaits⟩
    · rcases hp hwaits with hdrowsy | hpos
      · exact Or.inl ⟨call, mem_of_getElem? hc, Or.inl hdrowsy⟩
      · exact Or.inr hpos
  rcases hold with hold | hpos
  · rcases h hold with hpos | hcompleted | ⟨hbatch, htested⟩
    · exact Or.inl hpos
    · exact Or.inr (Or.inl hcompleted)
    · exact Or.inr (Or.inr ⟨hlast hbatch, htested⟩)
  · exact Or.inl hpos

theorem awake_loopHead (block : Nat) :
    ¬ (isDrowsy (loopHead cfg block) = true ∨ isAsleep (loopHead cfg block) = true) := by
  unfold loopHead
  split <;> simp [isDrowsy, isAsleep]

theorem FlushAllInv.inFlight_of_passes (h : FlushAllInv s) (hc : s.calls[c]? = some call)
    {w : Await} (hphase : call.phase = .testing w) (hpass : s.passes w = false) :
    0 < inFlight s.requests := by
  rw [← h.exact hc (by rw [hphase]; rfl) (by rw [hphase]; rfl)]
  have hT := cfg.processThreadsNum_pos
  cases w with
  | room block =>
    have hge : cfg.processThreadsNum ≤ s.flushAllBlocksCount := by simpa [passes] using hpass
    omega
  | drained =>
    have hne : s.flushAllBlocksCount ≠ 0 := by simpa [passes] using hpass
    omega

theorem FlushAllInv.count_eq_zero (h : FlushAllInv s) (hzero : inFlight s.requests = 0)
    (hwaiting : SomeoneWaits s)
    (hasleep : cfg.processThreadsNum < s.flushAllBlocksCount →
      ∀ call ∈ s.calls, isAsleep call.phase = false) : s.flushAllBlocksCount = 0 := by
  have hcounted := h.counted
  have hsmall := h.small
  have hT := cfg.processThreadsNum_lt
  have hle : (s.calls.countP fun c => isCounting c.phase) ≤ s.locked.toNat :=
    h.lock ▸ countP_mono_left fun c _ hcount => holds_of_isCounting _ hcount
  have hone := Bool.toNat_le s.locked
  rw [hzero] at hcounted
  by_contra hne
  -- else somebody counts, so that nobody is drowsy, and the counter is too large for one asleep
  obtain ⟨call, hmem, hdrowsy | hdozes⟩ := hwaiting
  · obtain ⟨c, hc⟩ := mem_iff_getElem?.mp hmem
    have hnone := h.alone hc (holds_of_isDrowsy _ hdrowsy) holds_of_isCounting
      (isCounting_of_isDrowsy _ hdrowsy)
    omega
  · rw [hasleep (by omega) call hmem] at hdozes
    cases hdozes

theorem SoonWoken.notify (h : SoonWoken s) (hinv : FlushAllInv s) (hr : s.requests[i]? = some r)
    {p : AllRequestPhase} {b : Bool} (hphase : r.phase ≠ .inFlight) (hp : p ≠ .inFlight)
    (hdrowsy : s.flushAllBlocksCount = 0 → ∀ call ∈ s.calls, isDrowsy call.phase = false)
    (hasleep : cfg.processThreadsNum < s.flushAllBlocksCount →
      ∀ call ∈ s.calls, isAsleep call.phase = false)
    (hkept : s.flushAllBlocksCount = 0 → b = false →
      ((∃ r ∈ s.requests, r.phase = .completed)
        ∨ s.lastBatch = true ∧ ∃ r ∈ s.requests, r.phase = .tested) →
      (∃ r' ∈ s.requests.set i { r with phase := p }, r'.phase = .completed)
        ∨ s.lastBatch = true
          ∧ ∃ r' ∈ s.requests.set i { r with phase := p }, r'.phase = .tested) :
    SoonWoken ((s.setRequest i r p).notifyIf b) := by
  have hsame := inFlight_set hr hphase hp
  cases b with
  | true =>
    intro ⟨call', hmem', hwaits⟩
    obtain ⟨call, hmem, rfl⟩ := mem_map.mp hmem'
    -- whoever was asleep is awake, and the one that is drowsy has the lock
    rw [isAsleep_wake, isDrowsy_wake] at hwaits
    have hholds : isDrowsy call.phase = true := hwaits.resolve_right (by simp)
    obtain ⟨c, hc⟩ := mem_iff_getElem?.mp hmem
    have hexact := hinv.exact hc (holds_of_isDrowsy _ hholds) (isCounting_of_isDrowsy _ hholds)
    refine Or.inl (Nat.pos_of_ne_zero fun hzero => ?_)
    have hcount : s.flushAllBlocksCount = 0 := hexact.trans (hsame.symm.trans hzero)
    rw [hdrowsy hcount call hmem] at hholds
    cases hholds
  | false =>
    intro hwaiting
    by_cases hzero : inFlight s.requests = 0
    · have hcount := hinv.count_eq_zero hzero hwaiting hasleep
      exact Or.inr (hkept hcount rfl ((h hwaiting).resolve_left (by omega)))
    · exact Or.inl (Nat.lt_of_lt_of_eq (Nat.pos_of_ne_zero hzero) hsame.symm)

/-- **A step keeps it**, if no notification is missed. -/
theorem soonWoken_step {a : Act} (hinv : FlushAllInv s) (h : SoonWoken s) (hok : NoneMissed s a)
    (hs : s.step a = some s') : SoonWoken s' := by
  cases step_cases hs with
  | @call ioType =>
    intro ⟨call, hmem, hwaits⟩
    rcases mem_append.mp hmem with hmem | hmem
    · exact h ⟨call, hmem, hwaits⟩
    · rw [mem_singleton.mp hmem] at hwaits
      exact absurd hwaits (by simp [isDrowsy, isAsleep])
  | enter hc _ _ => exact h.move hc id fun hp => absurd hp (awake_loopHead 0)
  | relock hc _ _ | room hc _ _ | ret hc _ _ | wakeUp hc _ =>
    exact h.move hc id fun hp => absurd hp (by simp [isDrowsy, isAsleep])
  | wait hc hphase hpass =>
    exact h.move hc id fun _ => Or.inr (hinv.inFlight_of_passes hc hphase hpass)
  | sleep hc hphase => exact h.move hc id fun _ => Or.inl (by rw [hphase]; rfl)
  | enqueue hc _ =>
    intro _
    refine Or.inl ?_
    show 0 < inFlight (s.requests ++ [_])
    rw [inFlight_concat rfl]
    exact Nat.succ_pos _
  | count hc _ => exact h.move hc id fun hp => absurd hp (awake_loopHead _)
  | finish hc _ =>
    exact h.move hc (fun _ => rfl) fun hp => absurd hp (by simp [isDrowsy, isAsleep])
  | @complete i r hr hphase =>
    intro _
    refine Or.inr (Or.inl ⟨{ r with phase := .completed }, ?_, rfl⟩)
    exact mem_set (lt_of_getElem? hr) _
  | @notifyRoom i r hr hphase =>
    refine h.notify hinv hr (by simp [hphase]) (by simp) hok.1 hok.2 fun hcount hb _ => ?_
    rw [hcount, decide_eq_true cfg.processThreadsNum_pos, Bool.and_true, Bool.not_eq_false'] at hb
    exact Or.inr ⟨hb, _, mem_set (lt_of_getElem? hr) _, rfl⟩
  | @notifyDrained i r hr hphase =>
    refine h.notify hinv hr (by simp [hphase]) (by simp) hok.1 hok.2 fun hcount hb hold => ?_
    rw [hcount, decide_eq_true rfl, Bool.and_true] at hb
    rcases hold with ⟨r', hmem, hphase'⟩ | ⟨hbatch, -⟩
    · obtain ⟨j, hj⟩ := mem_iff_getElem?.mp hmem
      have hne : i ≠ j := by
        rintro rfl
        obtain rfl := Option.some.inj (hr.symm.trans hj)
        exact absurd (hphase.symm.trans hphase') (by simp)
      refine Or.inl ⟨r', mem_iff_getElem?.mpr ⟨j, ?_⟩, hphase'⟩
      rw [getElem?_set_ne hne]
      exact hj
    · exact absurd (hb.symm.trans hbatch) (by simp)

theorem soonWoken_reachable (h : Reachable step NoneMissed (new cfg) s) :
    FlushAllInv s ∧ SoonWoken s := by
  refine Reachable.invariant (I := fun s => FlushAllInv s ∧ SoonWoken s)
    ⟨flushAllInv_new cfg, soonWoken_new cfg⟩ ?_ h
  intro s a s' ⟨hinv, hsoon⟩ hok hs
  exact ⟨flushAllInv_step hinv hs, soonWoken_step hinv hsoon hok hs⟩

/-! ### Every call returns -/

/-- Neither a new call, nor a wake-up that nobody has caused. -/
def OwnStep : Act → Prop
  | .call _ | .wakeUp _ => False
  | _ => True

theorem FlushAllInv.someone (h : FlushAllInv s) (hcall : ∃ call ∈ s.calls, call.phase ≠ .returned) :
    ∃ (c : Nat) (call : AllCall), s.calls[c]? = some call ∧ call.phase ≠ .returned
      ∧ (call.phase.holds = true ∨ s.locked = false) := by
  cases hlocked : s.locked with
  | true =>
    have hlock := h.lock
    rw [hlocked, Bool.toNat_true] at hlock
    obtain ⟨call, hmem, hhold⟩ :=
      countP_pos_iff.mp (Nat.lt_of_lt_of_eq Nat.one_pos hlock.symm)
    obtain ⟨c, hc⟩ := mem_iff_getElem?.mp hmem
    refine ⟨c, call, hc, ?_, Or.inl hhold⟩
    intro hret
    rw [hret] at hhold
    cases hhold
  | false =>
    obtain ⟨call, hmem, hne⟩ := hcall
    obtain ⟨c, hc⟩ := mem_iff_getElem?.mp hmem
    exact ⟨c, call, hc, hne, Or.inr rfl⟩

theorem FlushAllInv.noneMissed_of_unlocked (h : FlushAllInv s) (hfree : s.locked = false) :
    (s.flushAllBlocksCount = 0 → ∀ call ∈ s.calls, isDrowsy call.phase = false)
      ∧ (cfg.processThreadsNum < s.flushAllBlocksCount →
        ∀ call ∈ s.calls, isAsleep call.phase = false) := by
  have hlock := h.lock
  rw [hfree, Bool.toNat_false, countP_eq_zero] at hlock
  have hcount : (s.calls.countP fun c => isCounting c.phase) = 0 :=
    countP_eq_zero.mpr fun call hmem hp => hlock call hmem (holds_of_isCounting _ hp)
  refine ⟨fun _ call hmem => Bool.eq_false_iff.mpr fun hp => ?_, fun hlt => ?_⟩
  · exact hlock call hmem (holds_of_isDrowsy _ hp)
  · have hcounted := h.counted
    have hroom := h.room
    rw [hcount, Nat.add_zero, Nat.mod_eq_of_lt h.small] at hcounted
    omega

theorem FlushAllInv.wakes (h : FlushAllInv s) (hsoon : SoonWoken s) (hfree : s.locked = false)
    (hwaiting : SomeoneWaits s) : ∃ a s', OwnStep a ∧ NoneMissed s a ∧ s.step a = some s' := by
  have hmissed := h.noneMissed_of_unlocked hfree
  rcases hsoon hwaiting with hpos | ⟨r, hmem, hphase⟩ | ⟨-, r, hmem, hphase⟩
  · obtain ⟨r, hmem, hphase⟩ := countP_pos_iff.mp hpos
    obtain ⟨i, hr⟩ := mem_iff_getElem?.mp hmem
    have hstep := (Stepped.complete hr (of_decide_eq_true hphase)).step_eq
    exact ⟨.complete i, _, trivial, trivial, hstep⟩
  · obtain ⟨i, hr⟩ := mem_iff_getElem?.mp hmem
    exact ⟨.notifyRoom i, _, trivial, hmissed, (Stepped.notifyRoom hr hphase).step_eq⟩
  · obtain ⟨i, hr⟩ := mem_iff_getElem?.mp hmem
    exact ⟨.notifyDrained i, _, trivial, hmissed, (Stepped.notifyDrained hr hphase).step_eq⟩

/-- **Unless all calls have returned, somebody goes on.** -/
theorem FlushAllInv.advance (h : FlushAllInv s) (hsoon : SoonWoken s)
    (hcall : ∃ call ∈ s.calls, call.phase ≠ .returned) :
    ∃ a s', OwnStep a ∧ NoneMissed s a ∧ s.step a = some s' := by
  obtain ⟨c, call, hc, hne, hable⟩ := h.someone hcall
  cases hphase : call.phase with
  | entering =>
    have hfree : s.locked = false := hable.resolve_left (by simp [hphase, CallPhase.holds])
    exact ⟨.lock c, _, trivial, trivial, (Stepped.enter hc hphase hfree).step_eq⟩
  | testing w =>
    cases hpass : s.passes w with
    | false => exact ⟨.test c, _, trivial, trivial, (Stepped.wait hc hphase hpass).step_eq⟩
    | true =>
      cases w with
      | room block =>
        have hstep := (Stepped.room hc hphase (of_decide_eq_true hpass)).step_eq
        exact ⟨.test c, _, trivial, trivial, hstep⟩
      | drained =>
        have hstep := (Stepped.ret hc hphase (of_decide_eq_true hpass)).step_eq
        exact ⟨.test c, _, trivial, trivial, hstep⟩
  | drowsy w => exact ⟨.sleep c, _, trivial, trivial, (Stepped.sleep hc hphase).step_eq⟩
  | asleep w =>
    have hfree : s.locked = false := hable.resolve_left (by simp [hphase, CallPhase.holds])
    exact h.wakes hsoon hfree ⟨call, mem_of_getElem? hc, Or.inr (by rw [hphase]; rfl)⟩
  | woken w =>
    have hfree : s.locked = false := hable.resolve_left (by simp [hphase, CallPhase.holds])
    exact ⟨.lock c, _, trivial, trivial, (Stepped.relock hc hphase hfree).step_eq⟩
  | enqueuing block => exact ⟨.enqueue c, _, trivial, trivial, (Stepped.enqueue hc hphase).step_eq⟩
  | counting block => exact ⟨.count c, _, trivial, trivial, (Stepped.count hc hphase).step_eq⟩
  | ending => exact ⟨.finish c, _, trivial, trivial, (Stepped.finish hc hphase).step_eq⟩
  | returned => exact absurd hphase hne

def waitRank (n k : Nat) : Await → Nat
  | .room block => (6 * k + 8) * (n - block) + 2
  | .drained => 0

def callRank (n k : Nat) : CallPhase → Nat
  | .returned => 0
  | .asleep w => waitRank n k w + 1
  | .drowsy w => waitRank n k w + 2
  | .testing w => waitRank n k w + 3
  | .woken w => waitRank n k w + 4
  | .ending => 5
  | .counting block => (6 * k + 8) * (n - block - 1) + 6
  | .enqueuing block => (6 * k + 8) * (n - block) + 2
  | .entering => (6 * k + 8) * n + 6

def requestRank (k : Nat) : AllRequestPhase → Nat
  | .inFlight => 6 * k + 3
  | .completed => 6 * k + 2
  | .tested => 3 * k + 1
  | .through => 0

def toDo (s : FlushAll cfg) : Nat :=
  (s.calls.map fun c => callRank cfg.blocksCount s.calls.length c.phase).sum
    + (s.requests.map fun r => requestRank s.calls.length r.phase).sum

theorem callRank_loopHead (k block : Nat) : callRank cfg.blocksCount k (loopHead cfg block)
    ≤ (6 * k + 8) * (cfg.blocksCount - block) + 5 := by
  unfold loopHead
  split
  · exact Nat.le_refl _
  · exact Nat.le_add_left 5 _

theorem sum_callRank_set (hc : s.calls[c]? = some call) (p : CallPhase) :
    ((s.calls.set c { call with phase := p }).map
        fun c => callRank cfg.blocksCount s.calls.length c.phase).sum
      + callRank cfg.blocksCount s.calls.length call.phase
      = (s.calls.map fun c => callRank cfg.blocksCount s.calls.length c.phase).sum
        + callRank cfg.blocksCount s.calls.length p :=
  sum_map_set_add (fun c : AllCall => callRank cfg.blocksCount s.calls.length c.phase)
    { call with phase := p } hc

theorem sum_requestRank_set (hr : s.requests[i]? = some r) (p : AllRequestPhase) :
    ((s.requests.set i { r with phase := p }).map
        fun r => requestRank s.calls.length r.phase).sum + requestRank s.calls.length r.phase
      = (s.requests.map fun r => requestRank s.calls.length r.phase).sum
        + requestRank s.calls.length p :=
  sum_map_set_add (fun r : AllRequest => requestRank s.calls.length r.phase)
    { r with phase := p } hr

theorem toDo_move (hc : s.calls[c]? = some call) {p : CallPhase} {locked lastBatch : Bool}
    {blocksCount : Nat} (hlt : callRank cfg.blocksCount s.calls.length p
      < callRank cfg.blocksCount s.calls.length call.phase) :
    @toDo cfg ({ s with
      locked := locked
      flushAllBlocksCount := blocksCount
      lastBatch := lastBatch }.setPhase c call p) < toDo s := by
  have hadd := sum_callRank_set hc p
  unfold toDo FlushAll.setPhase
  rw [length_set]
  dsimp only
  omega

theorem toDo_enqueue (h : FlushAllInv s) (hc : s.calls[c]? = some call) {block : Nat}
    (hphase : call.phase = .enqueuing block) :
    @toDo cfg ({ s with
      requests := s.requests ++ [AllRequest.mk c call.ioType block .inFlight] }.setPhase c call
        (.counting block)) < toDo s := by
  have hlt := h.inside call (mem_of_getElem? hc) block (by rw [hphase]; rfl)
  have hadd := sum_callRank_set hc (.counting block)
  obtain ⟨m, hm⟩ : ∃ m, cfg.blocksCount - block = m + 1 := ⟨cfg.blocksCount - block - 1, by omega⟩
  have henqueuing : callRank cfg.blocksCount s.calls.length call.phase
      = callRank cfg.blocksCount s.calls.length (.counting block)
        + requestRank s.calls.length .inFlight + 1 := by
    rw [hphase]
    simp only [callRank, requestRank, hm, Nat.add_sub_cancel, Nat.mul_succ]
    omega
  unfold toDo FlushAll.setPhase
  rw [length_set]
  dsimp only
  rw [map_append, sum_append, map_singleton, sum_singleton]
  dsimp only
  omega

theorem sum_callRank_wake (n k : Nat) (calls : List AllCall) :
    ((calls.map fun c => { c with phase := c.phase.wake }).map fun c => callRank n k c.phase).sum
      ≤ (calls.map fun c => callRank n k c.phase).sum + 3 * calls.length := by
  induction calls with
  | nil => exact Nat.le_refl 0
  | cons call calls ih =>
    have hcall : callRank n k call.phase.wake ≤ callRank n k call.phase + 3 := by
      cases call.phase with
      | asleep w => exact Nat.le_refl _
      | _ => exact Nat.le_add_right _ _
    simp only [map_cons, sum_cons, length_cons]
    omega

theorem toDo_notify (hr : s.requests[i]? = some r) {p : AllRequestPhase} (b : Bool)
    (hlt : requestRank s.calls.length p + 3 * s.calls.length < requestRank s.calls.length r.phase) :
    toDo ((s.setRequest i r p).notifyIf b) < toDo s := by
  have hadd := sum_requestRank_set hr p
  cases b with
  | false =>
    show toDo (s.setRequest i r p) < toDo s
    unfold toDo FlushAll.setRequest
    dsimp only
    omega
  | true =>
    have hwake := sum_callRank_wake cfg.blocksCount s.calls.length s.calls
    unfold toDo notifyIf FlushAll.setRequest
    rw [if_pos rfl, length_map]
    dsimp only
    omega

/-- **A step leaves less to do.** -/
theorem toDo_step {a : Act} (h : FlushAllInv s) (ha : OwnStep a) (hs : s.step a = some s') :
    toDo s' < toDo s := by
  cases step_cases hs with
  | call | wakeUp => exact absurd ha id
  | enter hc hphase _ =>
    refine toDo_move hc (Nat.lt_of_le_of_lt (callRank_loopHead _ 0) ?_)
    rw [hphase]
    exact Nat.lt_succ_self _
  | relock hc hphase _ | wait hc hphase _ | sleep hc hphase =>
    exact toDo_move hc (by rw [hphase]; exact Nat.lt_succ_self _)
  | room hc hphase _ => exact toDo_move hc (by rw [hphase]; simp only [callRank, waitRank]; omega)
  | ret hc hphase _ => exact toDo_move hc (by rw [hphase]; exact Nat.succ_pos _)
  | enqueue hc hphase => exact toDo_enqueue h hc hphase
  | @count c block call hc hphase =>
    refine toDo_move hc (Nat.lt_of_le_of_lt (callRank_loopHead _ _) ?_)
    rw [hphase, ← Nat.sub_sub]
    exact Nat.lt_succ_self _
  | finish hc hphase =>
    exact toDo_move hc (by rw [hphase]; simp only [callRank, waitRank]; omega)
  | @complete i r hr hphase =>
    have hadd := sum_requestRank_set hr .completed
    have hrank : requestRank s.calls.length r.phase
        = requestRank s.calls.length .completed + 1 := by rw [hphase]; rfl
    unfold toDo FlushAll.setRequest
    dsimp only
    omega
  | notifyRoom hr hphase => exact toDo_notify hr _ (by rw [hphase]; simp only [requestRank]; omega)
  | notifyDrained hr hphase =>
    exact toDo_notify hr _ (by rw [hphase]; simp only [requestRank]; omega)

/-- What a call and everyone beside it can rely on. -/
structure BarrierLaws (s : FlushAll cfg) : Prop where
  /-- A call enqueues the blocks in turn, each of them once. -/
  inTurn : ∀ c call, s.calls[c]? = some call →
    ∃ n ≤ cfg.blocksCount, blocksOf c s.requests = List.range n
  /-- When it returns, all of them. -/
  everyBlock : ∀ c call, s.calls[c]? = some call → call.phase = .returned →
    blocksOf c s.requests = List.range cfg.blocksCount
  atMost : inFlight s.requests ≤ cfg.processThreadsNum
  /-- When it returns, every one of its requests has been completed. -/
  completed : ∀ c call, s.calls[c]? = some call → call.phase = .returned →
    ∀ r ∈ s.requests, r.call = c → r.phase ≠ .inFlight

theorem enqueued_le {n : Nat} {p : CallPhase} (h : ∀ block, roundOf p = some block → block < n) :
    enqueued n p ≤ n := by
  cases hround : roundOf p with
  | none =>
    cases p with
    | counting block => cases hround
    | entering => exact Nat.zero_le _
    | _ => simp only [enqueued, hround, Option.getD_none, Nat.le_refl]
  | some block =>
    have hlt := h block hround
    cases p with
    | counting b =>
      cases hround
      exact hlt
    | entering => exact Nat.zero_le _
    | _ =>
      simp only [enqueued, hround, Option.getD_some]
      exact Nat.le_of_lt hlt

theorem FlushAllInv.barrierLaws (h : FlushAllInv s) : BarrierLaws s := by
  refine ⟨fun c call hc => ?_, fun c call hc hret => ?_, ?_, h.returned⟩
  · exact ⟨_, enqueued_le (h.inside call (mem_of_getElem? hc)), h.blocks c call hc⟩
  · rw [h.blocks c call hc, hret]
    rfl
  · have hroom := h.room
    omega

/--
**`flush_all` and `promote_all` are completion barriers**, whatever calls there are and however
their steps and those of the workers interleave; as far as no notification is missed, they are
barriers that everybody passes. Unless all calls have returned somebody can go on, and
without new calls that comes to an end: no run is longer than what is to do.
-/
theorem flushAll_barrier (cfg : FlushAllConfig) :
    (∀ s, Reachable step Unrestricted (new cfg) s → BarrierLaws s)
      ∧ ∀ s, Reachable step NoneMissed (new cfg) s →
        ((∃ call ∈ s.calls, call.phase ≠ .returned) →
          ∃ a s', OwnStep a ∧ NoneMissed s a ∧ s.step a = some s')
        ∧ ∀ acts s', (∀ a ∈ acts, OwnStep a) →
          run step Unrestricted s acts = some s' → acts.length ≤ toDo s := by
  refine ⟨fun s hs => ?_, fun s hs => ?_⟩
  · have hinv := Reachable.invariant (flushAllInv_new cfg)
      (fun _ _ _ hinv _ hstep => flushAllInv_step hinv hstep) hs
    exact hinv.barrierLaws
  · obtain ⟨hinv, hsoon⟩ := soonWoken_reachable hs
    have hstep : ∀ (s : FlushAll cfg) a s', FlushAllInv s → OwnStep a → s.step a = some s' →
        FlushAllInv s' ∧ toDo s' < toDo s :=
      fun s a s' h ha hs => ⟨flushAllInv_step h hs, toDo_step h ha hs⟩
    exact ⟨hinv.advance hsoon, fun acts s' hown hrun =>
      run_length_le toDo hstep hinv hown hrun⟩

/--
Two calls with one thread. The request of the first is completed before it is counted, the
second has to wait for the first, and both return.
-/
theorem flushAll_barrier_two : ∃ s : FlushAll ⟨1, 1, by decide, by decide⟩,
    Reachable step NoneMissed (new _) s
      ∧ s.calls = [⟨.flush, .returned⟩, ⟨.promote, .asleep .drained⟩]
      ∧ blocksOf 0 s.requests = [0] ∧ blocksOf 1 s.requests = [0] ∧ BarrierLaws s
      ∧ ∃ a s', OwnStep a ∧ NoneMissed s a ∧ s.step a = some s' := by
  have hrun : (run step NoneMissed (new ⟨1, 1, by decide, by decide⟩)
      [.flushAll, .promoteAll, .lock 0, .test 0, .enqueue 0, .complete 0, .notifyRoom 0,
        .notifyDrained 0, .count 0, .finish 0, .test 0, .lock 1, .test 1, .enqueue 1, .count 1,
        .finish 1, .test 1, .sleep 1]).map
      (fun s => decide (s.calls = [⟨.flush, .returned⟩, ⟨.promote, .asleep .drained⟩]
        ∧ blocksOf 0 s.requests = [0] ∧ blocksOf 1 s.requests = [0])) = some true := by
    decide +kernel
  obtain ⟨s, hs, hcalls, hzero, hone⟩ := Reachable.of_run_decide hrun
  obtain ⟨hlaws, hgoes⟩ := flushAll_barrier ⟨1, 1, by decide, by decide⟩
  refine ⟨s, hs, hcalls, hzero, hone, hlaws s hs.unrestricted, (hgoes s hs).1 ?_⟩
  rw [hcalls]
  exact ⟨⟨.promote, .asleep .drained⟩, by simp, by simp⟩

/-- Nobody can go on. -/
def NobodyGoesOn (s : FlushAll cfg) : Prop := ∀ a, OwnStep a → s.step a = none

theorem nobodyGoesOn_of_asleep
    (hcalls : ∀ call ∈ s.calls, isAsleep call.phase = true ∨ call.phase = .returned)
    (hrequests : ∀ r ∈ s.requests, r.phase = .through) : NobodyGoesOn s := by
  intro a ha
  cases hs : s.step a with
  | none => rfl
  | some s' =>
    have hcall : ∀ {c : Nat} {call : AllCall} {p : CallPhase}, s.calls[c]? = some call →
        call.phase = p → isAsleep p = true ∨ p = .returned := by
      rintro c call p hc rfl
      exact hcalls call (mem_of_getElem? hc)
    have hrequest : ∀ {i : Nat} {r : AllRequest} {p : AllRequestPhase}, s.requests[i]? = some r →
        r.phase = p → p = .through := by
      rintro i r p hr rfl
      exact hrequests r (mem_of_getElem? hr)
    cases step_cases hs with
    | call | wakeUp => exact absurd ha id
    | enter hc hphase _ | relock hc hphase _ | room hc hphase _ | ret hc hphase _
    | wait hc hphase _ | sleep hc hphase | enqueue hc hphase | count hc hphase
    | finish hc hphase => exact absurd (hcall hc hphase) (by simp [isAsleep])
    | complete hr hphase | notifyRoom hr hphase | notifyDrained hr hphase =>
      cases hrequest hr hphase

/--
Two blocks and one thread. The request for the first one is completed when the call has looked at
the counter and is not asleep yet: it sleeps for good, before the second one. With two
calls and one block, the second call's request is completed before it is counted, and
the completion of the first call's finds the counter far from zero: the first call sleeps for good.
-/
theorem flushAll_sleeps :
    (∃ s : FlushAll ⟨2, 1, by decide, by decide⟩,
      Reachable step Unrestricted (new _) s
        ∧ s.calls = [⟨.flush, .asleep (.room 1)⟩] ∧ blocksOf 0 s.requests = [0] ∧ NobodyGoesOn s)
      ∧ ∃ s : FlushAll ⟨1, 1, by decide, by decide⟩,
        Reachable step Unrestricted (new _) s
          ∧ s.calls = [⟨.flush, .asleep .drained⟩, ⟨.promote, .returned⟩] ∧ NobodyGoesOn s := by
  have hone : (run step Unrestricted (new ⟨2, 1, by decide, by decide⟩)
      [.flushAll, .lock 0, .test 0, .enqueue 0, .count 0, .test 0, .complete 0, .notifyRoom 0,
        .notifyDrained 0, .sleep 0]).map
      (fun s => decide (s.calls = [⟨.flush, .asleep (.room 1)⟩] ∧ blocksOf 0 s.requests = [0]
        ∧ ∀ r ∈ s.requests, r.phase = .through)) = some true := by decide +kernel
  have htwo : (run step Unrestricted (new ⟨1, 1, by decide, by decide⟩)
      [.flushAll, .promoteAll, .lock 0, .test 0, .enqueue 0, .count 0, .finish 0, .test 0, .sleep 0,
        .complete 0, .lock 1, .test 1, .enqueue 1, .complete 1, .notifyRoom 0, .notifyDrained 0,
        .notifyRoom 1, .notifyDrained 1, .count 1, .finish 1, .test 1]).map
      (fun s => decide (s.calls = [⟨.flush, .asleep .drained⟩, ⟨.promote, .returned⟩]
        ∧ ∀ r ∈ s.requests, r.phase = .through)) = some true := by decide +kernel
  obtain ⟨s, hs, hcalls, hblocks, hrequests⟩ := Reachable.of_run_decide hone
  obtain ⟨t, ht, hcalls', hrequests'⟩ := Reachable.of_run_decide htwo
  refine ⟨⟨s, hs, hcalls, hblocks, nobodyGoesOn_of_asleep ?_ hrequests⟩,
    ⟨t, ht, hcalls', nobodyGoesOn_of_asleep ?_ hrequests'⟩⟩
  · rw [hcalls]
    simp [isAsleep]
  · rw [hcalls']
    simp [isAsleep]

end HDCS.Proof
