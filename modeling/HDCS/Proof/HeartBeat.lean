import HDCS.Core.HeartBeat
import HDCS.Proof.SafeTimer

/-!
# Whose events are in the timer

A heartbeat points to its timeout and not to its ping. So a timeout that is in the timer can always
be cancelled by the heartbeat it captures, and a ping never can: it stays until it comes due. That
is harmless as long as the ping has been sent when the reply comes, or when the heartbeat is
destroyed. A reply that comes earlier leaves two pings, and a heartbeat that is destroyed earlier
leaves one that captures it (`heartBeat_safe_iff`).

The timeout goes by the replies in any case. It is cancelled by every reply, so one that comes due
has been scheduled after the last of them (`Unanswered`).
-/

namespace HDCS.Proof

open Lib Machine SafeTimer HeartBeatService Function List

variable {s s' : HeartBeatService}

/-- An event in the timer that captures a heartbeat. -/
def Owns (s : HeartBeatService) (x : Scheduled) (i : Nat) (k : HeartBeatEvent) : Prop :=
  x ∈ s.timer.schedule ∧ s.comps x.callback = some (i, k)

def pointer (s : HeartBeatService) (i : Nat) : Option Nat :=
  (s.insts[i]?).bind HeartBeat.timeoutEvent

/-- It has been made and not been destroyed. -/
def IsLive (s : HeartBeatService) (i : Nat) : Prop := ∃ h, s.insts[i]? = some h ∧ h.live = true

def Unanswered (log : List HeartBeatRecord) (i place : Nat) : Prop :=
  ∃ pre mid, log = pre ++ .began i place :: mid ∧ .replied i ∉ mid

/-- The error handler ran for timeouts without a reply only. -/
def TimedOutRight (log : List HeartBeatRecord) : Prop :=
  ∀ pre i place post, log = pre ++ .timedOut i place :: post → Unanswered pre i place

theorem Unanswered.append {log more : List HeartBeatRecord} {i place : Nat}
    (h : Unanswered log i place) (hmore : .replied i ∉ more) :
    Unanswered (log ++ more) i place := by
  obtain ⟨pre, mid, rfl, hmid⟩ := h
  refine ⟨pre, mid ++ more, by rw [append_assoc, cons_append], fun hmem => ?_⟩
  exact (mem_append.mp hmem).elim hmid hmore

theorem TimedOutRight.snoc {log : List HeartBeatRecord} {e : HeartBeatRecord}
    (h : TimedOutRight log) (he : ∀ i place, e = .timedOut i place → Unanswered log i place) :
    TimedOutRight (log ++ [e]) := by
  intro pre i place post heq
  rcases eq_nil_or_concat' post with rfl | ⟨post, e', rfl⟩
  · obtain ⟨rfl, hlast⟩ := append_inj' heq rfl
    exact he i place (singleton_inj.mp hlast)
  · rw [← cons_append, ← append_assoc] at heq
    exact h pre i place post (append_inj' heq rfl).1

/-! ## The maps -/

structure Allocated (s : HeartBeatService) : Prop where
  matched : Matched s.timer.schedule s.timer.events
  places : ∀ x ∈ s.timer.schedule, x.place < s.timer.places
  comps : ∀ x ∈ s.timer.schedule, s.comps x.callback ≠ none

section Cancel

theorem cancel_insts (p : Option Nat) : (s.cancel p).insts = s.insts := by
  cases p <;> rfl

theorem cancel_hbMap (p : Option Nat) : (s.cancel p).hbMap = s.hbMap := by
  cases p <;> rfl

theorem cancel_log (p : Option Nat) : (s.cancel p).log = s.log := by
  cases p <;> rfl

theorem cancel_none {p : Nat} (hp : s.timer.events p = none) : s.cancel (some p)
    = { s with timer := { s.timer with log := s.timer.log ++ [.cancelled p none] } } := by
  simp only [HeartBeatService.cancel, SafeTimer.cancelEvent, hp, Option.isSome_none]
  rfl

theorem cancel_some {p place : Nat} (hp : s.timer.events p = some place) : s.cancel (some p)
    = { s with
        timer := { s.timer with
          schedule := s.timer.schedule.filter fun y => y.place ≠ place
          events := update s.timer.events p none
          log := s.timer.log ++ [.cancelled p (some place)] }
        comps := update s.comps p none } := by
  simp only [HeartBeatService.cancel, SafeTimer.cancelEvent, hp, Option.isSome_some]
  rfl

/-- **What is cancelled is what has the address**, whosever it is by then. -/
theorem Allocated.cancel (h : Allocated s) (p : Option Nat) : Allocated (s.cancel p)
    ∧ ∀ x i k, Owns (s.cancel p) x i k ↔ Owns s x i k ∧ p ≠ some x.callback := by
  cases p with
  | none => exact ⟨h, fun x i k => (and_iff_left (Option.some_ne_none _).symm).symm⟩
  | some p =>
    cases hp : s.timer.events p with
    | none =>
      rw [cancel_none hp]
      refine ⟨⟨h.matched, h.places, h.comps⟩, fun x i k => ⟨fun hx => ⟨hx, fun he => ?_⟩, And.left⟩⟩
      rw [Option.some.inj he, h.matched.find hx.1] at hp
      exact Option.some_ne_none _ hp
    | some place =>
      obtain ⟨z, hz, rfl, rfl⟩ := (h.matched.lookup p place).mp hp
      obtain ⟨hmatched, hmem⟩ := h.matched.erase hz
      have hother : ∀ x ∈ s.timer.schedule, x ≠ z → x.callback ≠ z.callback :=
        fun x hx hne heq => hne (h.matched.eq_of_callback hx hz heq)
      rw [cancel_some hp]
      refine ⟨⟨hmatched, fun x hx => h.places x ((hmem x).mp hx).1, fun x hx => ?_⟩,
        fun x i k => ?_⟩
      · obtain ⟨hx, hne⟩ := (hmem x).mp hx
        show update s.comps z.callback none x.callback ≠ none
        rw [update_of_ne (hother x hx hne)]
        exact h.comps x hx
      · show x ∈ s.timer.schedule.filter _
          ∧ update s.comps z.callback none x.callback = some (i, k) ↔ _
        rw [hmem]
        constructor
        · rintro ⟨⟨hx, hne⟩, hcomps⟩
          rw [update_of_ne (hother x hx hne)] at hcomps
          exact ⟨⟨hx, hcomps⟩, fun he => hother x hx hne (Option.some.inj he).symm⟩
        · rintro ⟨⟨hx, hcomps⟩, hp⟩
          have hne : x ≠ z := fun he => hp (by rw [he])
          rw [update_of_ne (hother x hx hne)]
          exact ⟨⟨hx, hne⟩, hcomps⟩

end Cancel

section Schedule

variable {inst p now delta : Nat} {event : HeartBeatEvent} {a : HeartBeatAlloc}

structure Adds (s : HeartBeatService) (inst p : Nat) (event : HeartBeatEvent)
    (s' : HeartBeatService) (x : Scheduled) : Prop where
  allocated : Allocated s'
  callback : x.callback = p
  place : x.place = s.timer.places
  free : s.comps p = none
  owns : ∀ y i k, Owns s' y i k ↔ Owns s y i k ∨ y = x ∧ i = inst ∧ k = event
  comps : s'.comps = update s.comps p (some (inst, event))
  insts : s'.insts = s.insts.modify inst fun h => { h with timeoutEvent := some p }
  hbMap : s'.hbMap = s.hbMap
  log : s'.log = s.log

theorem Allocated.schedule (h : Allocated s)
    (hs : s.schedule inst event p now delta = some s') : ∃ x, Adds s inst p event s' x := by
  unfold HeartBeatService.schedule at hs
  split_ifs at hs with hfree
  have hnew : ∀ y ∈ s.timer.schedule, y.callback ≠ p := fun y hy he =>
    h.comps y hy (by rw [he]; exact hfree)
  have hevents : s.timer.events p = none := by
    cases hp : s.timer.events p with
    | none => rfl
    | some place =>
      obtain ⟨y, hy, hcb, _⟩ := (h.matched.lookup p place).mp hp
      exact absurd hcb (hnew y hy)
  cases htimer : s.timer.step (.addEventAfter now delta p) with
  | none =>
    rw [htimer] at hs
    exact (Option.some_ne_none _ hs.symm).elim
  | some timer =>
    rw [htimer, Option.map_some] at hs
    cases hs
    cases step_cases htimer with
    | add hnow =>
      let x : Scheduled := ⟨s.timer.places, (now + delta) % 2 ^ 64, p⟩
      have hadd : ∃ thread log, s.timer.addEventAt ((now + delta) % 2 ^ 64) p
          = { s.timer with
              schedule := insertScheduled x s.timer.schedule
              events := update s.timer.events p (some s.timer.places)
              places := s.timer.places + 1
              log
              thread } := by
        unfold SafeTimer.addEventAt
        simp only [hevents]
        exact ⟨_, _, rfl⟩
      obtain ⟨thread, log, hadd⟩ := hadd
      have hmatched : Matched (insertScheduled x s.timer.schedule)
          (update s.timer.events p (some s.timer.places)) :=
        h.matched.insert (fun y hy => Nat.ne_of_lt (h.places y hy)) hnew
      rw [hadd]
      refine ⟨x, ⟨hmatched, fun y hy => ?_, fun y hy => ?_⟩, rfl, rfl, hfree, fun y i k => ?_,
        rfl, rfl, rfl, rfl⟩
      · rcases mem_insertScheduled.mp hy with rfl | hy
        · exact Nat.lt_succ_self _
        · exact Nat.lt_succ_of_lt (h.places y hy)
      · show update s.comps p (some (inst, event)) y.callback ≠ none
        rcases mem_insertScheduled.mp hy with rfl | hy
        · rw [update_self]
          exact Option.some_ne_none _
        · rw [update_of_ne (hnew y hy)]
          exact h.comps y hy
      · show y ∈ insertScheduled x s.timer.schedule
          ∧ update s.comps p (some (inst, event)) y.callback = some (i, k) ↔ _
        rw [mem_insertScheduled]
        constructor
        · rintro ⟨rfl | hy, hcomps⟩
          · rw [update_self] at hcomps
            obtain ⟨rfl, rfl⟩ := Prod.mk.inj (Option.some.inj hcomps)
            exact Or.inr ⟨rfl, rfl, rfl⟩
          · rw [update_of_ne (hnew y hy)] at hcomps
            exact Or.inl ⟨hy, hcomps⟩
        · rintro (⟨hy, hcomps⟩ | ⟨rfl, rfl, rfl⟩)
          · rw [update_of_ne (hnew y hy)]
            exact ⟨Or.inr hy, hcomps⟩
          · exact ⟨Or.inl rfl, update_self ..⟩

structure Pings (s : HeartBeatService) (inst : Nat) (s' : HeartBeatService) (x y : Scheduled) :
    Prop where
  allocated : Allocated s'
  fresh : ∀ z i k, Owns s z i k → z.callback ≠ x.callback ∧ z.callback ≠ y.callback
  ne : x.callback ≠ y.callback
  owns : ∀ z i k, Owns s' z i k ↔ Owns s z i k ∨ z = x ∧ i = inst ∧ k = .ping
    ∨ z = y ∧ i = inst ∧ k = .timeout
  insts : s'.insts = s.insts.modify inst fun h => { h with timeoutEvent := some y.callback }
  hbMap : s'.hbMap = s.hbMap
  log : s'.log = s.log ++ [.began inst y.place]

theorem Allocated.heartbeatPing (h : Allocated s) (hs : s.heartbeatPing inst a = some s') :
    ∃ x y, Pings s inst s' x y := by
  unfold HeartBeatService.heartbeatPing at hs
  simp only [Option.bind_eq_bind, Option.bind_eq_some_iff] at hs
  obtain ⟨s₁, hping, s₂, htimeout, hs⟩ := hs
  cases hs
  obtain ⟨x, hx⟩ := h.schedule hping
  obtain ⟨y, hy⟩ := hx.allocated.schedule htimeout
  have hfree := hy.free
  have hne : x.callback ≠ y.callback := by
    intro he
    rw [hx.comps, ← hy.callback, ← he, hx.callback, update_self] at hfree
    exact Option.some_ne_none _ hfree
  have hnone : s.comps y.callback = none := by
    rw [hx.comps, ← hy.callback, update_of_ne (hx.callback ▸ hne.symm)] at hfree
    exact hfree
  refine ⟨x, y, ?_, fun z i k hz => ⟨fun he => ?_, fun he => ?_⟩, hne, fun z i k => ?_, ?_, ?_, ?_⟩
  · exact ⟨hy.allocated.matched, hy.allocated.places, hy.allocated.comps⟩
  · exact Option.some_ne_none _ (hz.2.symm.trans (by rw [he, hx.callback]; exact hx.free))
  · exact Option.some_ne_none _ (hz.2.symm.trans (by rw [he]; exact hnone))
  · show Owns s₂ z i k ↔ _
    rw [hy.owns, hx.owns, or_assoc]
  · show s₂.insts = _
    rw [hy.insts, hx.insts, modify_modify_eq, hy.callback]
    rfl
  · show s₂.hbMap = _
    rw [hy.hbMap, hx.hbMap]
  · show s₂.log ++ _ = _
    rw [hy.log, hx.log, hy.place]

end Schedule

section Fire

variable {now : Nat}

structure Completes (s : HeartBeatService) (done : List Scheduled) (s' : HeartBeatService) :
    Prop where
  timer : s'.timer = s.timer
  insts : s'.insts = s.insts
  hbMap : s'.hbMap = s.hbMap
  /-- Nothing else is deleted. -/
  comps : ∀ p, s'.comps p = s.comps p ∨ s'.comps p = none ∧ ∃ x ∈ done, x.callback = p
  log : ∃ more, s'.log = s.log ++ more ∧ ∀ i, .replied i ∉ more
  timedOut : TimedOutRight s.log → (∀ x ∈ done, ∀ i, s.comps x.callback = some (i, .timeout) →
    Unanswered s.log i x.place) → TimedOutRight s'.log

theorem completes_foldl (s : HeartBeatService) (l : List Scheduled) :
    Completes s l (l.foldl complete s) := by
  refine Machine.foldl_invariant (I := fun done s' => Completes s done s') ?_ ?_ l
  · exact ⟨rfl, rfl, rfl, fun _ => Or.inl rfl,
      ⟨[], by rw [append_nil], fun _ => not_mem_nil⟩, fun h _ => h⟩
  · intro done x s' h
    unfold HeartBeatService.complete
    cases hx : s'.comps x.callback with
    | none =>
      refine ⟨h.timer, h.insts, h.hbMap, fun p => (h.comps p).imp_right fun hp => ?_, h.log,
        fun hlog hdue => h.timedOut hlog fun y hy => hdue y (mem_append_left _ hy)⟩
      obtain ⟨hnone, y, hy, hcb⟩ := hp
      exact ⟨hnone, y, mem_append_left _ hy, hcb⟩
    | some owner =>
      obtain ⟨i, event⟩ := owner
      have hcomps : s.comps x.callback = some (i, event) := by
        rcases h.comps x.callback with he | ⟨he, _⟩
        · rw [← he, hx]
        · exact absurd (hx.symm.trans he) (Option.some_ne_none _)
      obtain ⟨more, hmore, hreplied⟩ := h.log
      refine ⟨h.timer, h.insts, h.hbMap, fun p => ?_, ?_, fun hlog hdue => ?_⟩
      · show update s'.comps x.callback none p = s.comps p
          ∨ update s'.comps x.callback none p = none ∧ _
        by_cases hp : p = x.callback
        · subst hp
          exact Or.inr ⟨update_self .., x, by simp, rfl⟩
        · rw [update_of_ne hp]
          refine (h.comps p).imp_right fun ⟨hnone, y, hy, hcb⟩ => ?_
          exact ⟨hnone, y, mem_append_left _ hy, hcb⟩
      · refine ⟨more ++ [event.callback i x.place], ?_, fun j hj => ?_⟩
        · show s'.log ++ _ = _
          rw [hmore, append_assoc]
        · rcases mem_append.mp hj with hj | hj
          · exact hreplied j hj
          · cases event <;> exact HeartBeatRecord.noConfusion (mem_singleton.mp hj)
      · have hlog' := h.timedOut hlog fun y hy => hdue y (mem_append_left _ hy)
        refine hlog'.snoc fun j place he => ?_
        cases event with
        | ping => exact HeartBeatRecord.noConfusion he
        | timeout =>
          obtain ⟨rfl, rfl⟩ := HeartBeatRecord.timedOut.inj he
          rw [hmore]
          exact (hdue x (by simp) i hcomps).append (hreplied i)

structure Fires (s : HeartBeatService) (now : Nat) (s' : HeartBeatService) : Prop where
  allocated : Allocated s'
  owns : ∀ x i k, Owns s' x i k ↔ Owns s x i k ∧ now < x.time
  insts : s'.insts = s.insts
  hbMap : s'.hbMap = s.hbMap
  log : ∃ more, s'.log = s.log ++ more ∧ ∀ i, .replied i ∉ more
  timedOut : TimedOutRight s.log → (∀ x i, Owns s x i .timeout → Unanswered s.log i x.place) →
    TimedOutRight s'.log

theorem iterate_maps (t : SafeTimer) (now : Nat) :
    (t.iterate now).schedule = (t.schedule.foldl (expire now) ⟨t.schedule, t.events, []⟩).schedule
      ∧ (t.iterate now).events = (t.schedule.foldl (expire now) ⟨t.schedule, t.events, []⟩).events
      ∧ (t.iterate now).places = t.places := by
  unfold SafeTimer.iterate
  dsimp only
  split
  · exact ⟨rfl, rfl, rfl⟩
  · split_ifs
    · exact ⟨rfl, rfl, rfl⟩
    · exact ⟨rfl, rfl, rfl⟩

theorem Allocated.fire (h : Allocated s) (hs : s.fire = some s') : ∃ now, Fires s now s' := by
  unfold HeartBeatService.fire at hs
  split at hs
  · rename_i now hthread
    cases hs
    obtain ⟨hmatched, hschedule, hlist⟩ := expire_foldl now h.matched
    obtain ⟨hsched', hevents', hplaces'⟩ := iterate_maps s.timer now
    rw [hlist]
    have hdone := completes_foldl { s with timer := s.timer.iterate now }
      (s.timer.schedule.filter fun x => x.time ≤ now)
    generalize List.foldl complete _ _ = s' at hdone ⊢
    have hmem : ∀ x, x ∈ s'.timer.schedule ↔ x ∈ s.timer.schedule ∧ now < x.time := by
      intro x
      rw [hdone.timer]
      show x ∈ (s.timer.iterate now).schedule ↔ _
      rw [hsched', hschedule, mem_filter, decide_eq_true_eq]
    -- what is not due keeps its completion
    have hcomps : ∀ x ∈ s.timer.schedule, now < x.time →
        s'.comps x.callback = s.comps x.callback := by
      intro x hx htime
      refine (hdone.comps x.callback).resolve_right ?_
      rintro ⟨_, y, hy, hcb⟩
      obtain ⟨hy, hdue⟩ := mem_filter.mp hy
      rw [h.matched.eq_of_callback hy hx hcb] at hdue
      exact absurd htime (Nat.not_lt.mpr (of_decide_eq_true hdue))
    refine ⟨now, ⟨?_, fun x hx => ?_, fun x hx => ?_⟩, fun x i k => ?_, hdone.insts, hdone.hbMap,
      hdone.log, fun hlog hun => hdone.timedOut hlog fun x hx i hi => ?_⟩
    · rw [hdone.timer]
      show Matched (s.timer.iterate now).schedule (s.timer.iterate now).events
      rw [hsched', hevents']
      exact hmatched
    · rw [hdone.timer]
      show x.place < (s.timer.iterate now).places
      rw [hplaces']
      exact h.places x ((hmem x).mp hx).1
    · obtain ⟨hx, htime⟩ := (hmem x).mp hx
      rw [hcomps x hx htime]
      exact h.comps x hx
    · unfold Owns
      rw [hmem]
      constructor
      · rintro ⟨⟨hx, htime⟩, hc⟩
        exact ⟨⟨hx, (hcomps x hx htime).symm.trans hc⟩, htime⟩
      · rintro ⟨⟨hx, hc⟩, htime⟩
        exact ⟨⟨hx, htime⟩, (hcomps x hx htime).trans hc⟩
    · exact hun x i ⟨(mem_filter.mp hx).1, hi⟩
  · exact (Option.some_ne_none _ hs.symm).elim

end Fire

/-! ## Pointers -/

structure PointsRight (s : HeartBeatService) : Prop where
  allocated : Allocated s
  made : ∀ x i k, Owns s x i k → i < s.insts.length
  mapped : ∀ node i, s.hbMap node = some i → i < s.insts.length
  timeouts : ∀ x i, Owns s x i .timeout → pointer s i = some x.callback ∧ Unanswered s.log i x.place
  pings : ∀ x i, Owns s x i .ping → pointer s i ≠ some x.callback
  timedOut : TimedOutRight s.log

theorem pointsRight_new (hbOpts : HeartBeatOpts) (clock : Nat) :
    PointsRight (HeartBeatService.new hbOpts clock) where
  allocated := ⟨(timerInv_new clock).matched, fun _ hx => absurd hx not_mem_nil,
    fun _ hx => absurd hx not_mem_nil⟩
  made := fun _ _ _ h => absurd h.1 not_mem_nil
  mapped := fun _ _ h => absurd h.symm (Option.some_ne_none _)
  timeouts := fun _ _ h => absurd h.1 not_mem_nil
  pings := fun _ _ h => absurd h.1 not_mem_nil
  timedOut := fun pre i place post h => absurd h (by simp [HeartBeatService.new])

section Pointers

variable {x y : Scheduled} {i inst : Nat}

theorem pointer_of_pings (h : Pings s inst s' x y) (hlt : inst < s.insts.length) :
    pointer s' inst = some y.callback := by
  unfold pointer
  rw [h.insts, getElem?_modify_eq, getElem?_eq_getElem hlt]
  rfl

theorem pointer_of_pings_ne (h : Pings s inst s' x y) (hne : i ≠ inst) :
    pointer s' i = pointer s i := by
  unfold pointer
  rw [h.insts, List.getElem?_modify_ne _ _ hne.symm]

theorem isLive_of_pings (h : Pings s inst s' x y) : IsLive s' i ↔ IsLive s i := by
  unfold IsLive
  rw [h.insts, getElem?_modify]
  cases s.insts[i]? with
  | none => simp
  | some b =>
    by_cases he : inst = i
    · simp [he]
    · simp [he]

theorem pointer_kill (j : Nat) : pointer { s with
    insts := s.insts.modify j fun h => { h with live := false } } i = pointer s i := by
  unfold pointer
  dsimp only
  rw [getElem?_modify]
  cases s.insts[i]? with
  | none => rfl
  | some h =>
    by_cases he : j = i
    · simp [he]
    · simp [he]

theorem isLive_kill (j : Nat) : IsLive { s with
    insts := s.insts.modify j fun h => { h with live := false } } i ↔ IsLive s i ∧ i ≠ j := by
  unfold IsLive
  dsimp only
  rw [getElem?_modify]
  cases s.insts[i]? with
  | none => simp
  | some h =>
    by_cases he : j = i
    · simp [he]
    · simp [he, Ne.symm he]

theorem isLive_made : IsLive { s with insts := s.insts ++ [⟨true, none⟩] } i
    ↔ IsLive s i ∨ i = s.insts.length := by
  unfold IsLive
  dsimp only
  constructor
  · rintro ⟨b, hb, hlive⟩
    by_cases hi : i < s.insts.length
    · rw [getElem?_append_left hi] at hb
      exact Or.inl ⟨b, hb, hlive⟩
    · have hi' := (List.getElem?_eq_some_iff.mp hb).1
      rw [length_append, length_singleton] at hi'
      exact Or.inr (by omega)
  · rintro (⟨b, hb, hlive⟩ | rfl)
    · rw [getElem?_append_left (List.getElem?_eq_some_iff.mp hb).1]
      exact ⟨b, hb, hlive⟩
    · exact ⟨⟨true, none⟩, getElem?_concat_length, rfl⟩

theorem pointer_congr (h : s'.insts = s.insts) : pointer s' i = pointer s i := by
  unfold pointer
  rw [h]

theorem isLive_congr (h : s'.insts = s.insts) : IsLive s' i ↔ IsLive s i := by
  unfold IsLive
  rw [h]

theorem PointsRight.fewer (h : PointsRight s) (hallocated : Allocated s')
    (howns : ∀ x i k, Owns s' x i k → Owns s x i k) (hinsts : s'.insts = s.insts)
    (hmap : s'.hbMap = s.hbMap) (hlog : ∃ more, s'.log = s.log ++ more ∧ ∀ i, .replied i ∉ more)
    (htimed : TimedOutRight s'.log) : PointsRight s' := by
  obtain ⟨more, hmore, hreplied⟩ := hlog
  refine ⟨hallocated, fun x i k hx => ?_, fun node i hi => ?_, fun x i hx => ?_, fun x i hx => ?_,
    htimed⟩
  · rw [hinsts]
    exact h.made x i k (howns x i k hx)
  · rw [hinsts]
    rw [hmap] at hi
    exact h.mapped node i hi
  · obtain ⟨hpointer, hun⟩ := h.timeouts x i (howns x i _ hx)
    rw [pointer_congr hinsts, hmore]
    exact ⟨hpointer, hun.append (hreplied i)⟩
  · rw [pointer_congr hinsts]
    exact h.pings x i (howns x i _ hx)

theorem PointsRight.cancel (h : PointsRight s) (p : Option Nat) : PointsRight (s.cancel p) := by
  obtain ⟨hallocated, howns⟩ := h.allocated.cancel p
  refine h.fewer hallocated (fun x i k hx => ((howns x i k).mp hx).1) (cancel_insts p)
    (cancel_hbMap p) ⟨[], ?_, fun _ => not_mem_nil⟩ ?_
  · rw [cancel_log, append_nil]
  · rw [cancel_log]
    exact h.timedOut

theorem PointsRight.replied (h : PointsRight s) (hno : ∀ x, ¬ Owns s x inst .timeout) :
    PointsRight { s with log := s.log ++ [.replied inst] } := by
  refine ⟨⟨h.allocated.matched, h.allocated.places, h.allocated.comps⟩, h.made, h.mapped,
    fun x i hx => ?_, h.pings, h.timedOut.snoc fun _ _ he => HeartBeatRecord.noConfusion he⟩
  obtain ⟨hpointer, hun⟩ := h.timeouts x i hx
  refine ⟨hpointer, hun.append fun hmem => ?_⟩
  obtain rfl := HeartBeatRecord.replied.inj (mem_singleton.mp hmem)
  exact hno x hx

theorem PointsRight.pings_of (h : PointsRight s) (hlt : inst < s.insts.length)
    (hno : ∀ x, ¬ Owns s x inst .timeout) (hp : Pings s inst s' x y) : PointsRight s' := by
  have hlen : s'.insts.length = s.insts.length := by
    rw [hp.insts, length_modify]
  have hbegan : ∀ i, HeartBeatRecord.replied i ∉ [HeartBeatRecord.began inst y.place] :=
    fun i hmem => HeartBeatRecord.noConfusion (mem_singleton.mp hmem)
  refine ⟨hp.allocated, fun z i k hz => ?_, fun node i hi => ?_, fun z i hz => ?_, fun z i hz => ?_,
    ?_⟩
  · rw [hlen]
    rcases (hp.owns z i k).mp hz with hz | ⟨_, rfl, _⟩ | ⟨_, rfl, _⟩
    · exact h.made z i k hz
    · exact hlt
    · exact hlt
  · rw [hlen]
    rw [hp.hbMap] at hi
    exact h.mapped node i hi
  · rw [hp.log]
    rcases (hp.owns z i _).mp hz with hz | ⟨_, _, hk⟩ | ⟨rfl, rfl, _⟩
    · have hne : i ≠ inst := fun he => hno z (he ▸ hz)
      obtain ⟨hpointer, hun⟩ := h.timeouts z i hz
      exact ⟨(pointer_of_pings_ne hp hne).trans hpointer, hun.append (hbegan i)⟩
    · exact HeartBeatEvent.noConfusion hk
    · exact ⟨pointer_of_pings hp hlt, s.log, [], rfl, not_mem_nil⟩
  · rcases (hp.owns z i _).mp hz with hz | ⟨rfl, rfl, _⟩ | ⟨_, _, hk⟩
    · by_cases he : i = inst
      · rw [he, pointer_of_pings hp hlt]
        exact fun heq => (hp.fresh z i _ hz).2 (Option.some.inj heq).symm
      · rw [pointer_of_pings_ne hp he]
        exact h.pings z i hz
    · rw [pointer_of_pings hp hlt]
      exact fun heq => hp.ne (Option.some.inj heq).symm
    · exact HeartBeatEvent.noConfusion hk
  · rw [hp.log]
    exact h.timedOut.snoc fun _ _ he => HeartBeatRecord.noConfusion he

theorem PointsRight.made_one (h : PointsRight s) :
    PointsRight { s with insts := s.insts ++ [⟨true, none⟩] } := by
  have hpointer : ∀ i < s.insts.length,
      pointer { s with insts := s.insts ++ [⟨true, none⟩] } i = pointer s i := by
    intro i hi
    unfold pointer
    dsimp only
    rw [getElem?_append_left hi]
  have hlen : s.insts.length < (s.insts ++ [HeartBeat.mk true none]).length := by simp
  refine ⟨⟨h.allocated.matched, h.allocated.places, h.allocated.comps⟩,
    fun x i k hx => (h.made x i k hx).trans hlen, fun node i hi => (h.mapped node i hi).trans hlen,
    fun x i hx => ?_, fun x i hx => ?_, h.timedOut⟩
  · rw [hpointer i (h.made x i _ hx)]
    exact h.timeouts x i hx
  · rw [hpointer i (h.made x i _ hx)]
    exact h.pings x i hx

theorem PointsRight.fires {now : Nat} (h : PointsRight s) (hf : Fires s now s') :
    PointsRight s' :=
  h.fewer hf.allocated (fun x i k hx => ((hf.owns x i k).mp hx).1) hf.insts hf.hbMap hf.log
    (hf.timedOut h.timedOut fun x i hx => (h.timeouts x i hx).2)

end Pointers

/-! ## The calls of the service -/

section Calls

variable {i inst : Nat} {a : HeartBeatAlloc} {node : Text}

theorem not_owns_cancel (h : PointsRight s) (i : Nat) (x : Scheduled) :
    ¬ Owns (s.cancel (pointer s i)) x i .timeout := by
  intro hx
  obtain ⟨hx, hne⟩ := ((h.allocated.cancel _).2 x i _).mp hx
  exact hne (h.timeouts x i hx).1

structure Replies (s : HeartBeatService) (inst : Nat) (s' : HeartBeatService) (x y : Scheduled) :
    Prop where
  right : PointsRight s'
  fresh : ∀ z i k, Owns s z i k → pointer s inst ≠ some z.callback → z.callback ≠ x.callback
  owns : ∀ z i k, Owns s' z i k ↔ Owns s z i k ∧ pointer s inst ≠ some z.callback
    ∨ z = x ∧ i = inst ∧ k = .ping ∨ z = y ∧ i = inst ∧ k = .timeout
  live : ∀ i, IsLive s' i ↔ IsLive s i

theorem PointsRight.reply (h : PointsRight s) (hs : s.reply inst a = some s') :
    ∃ x y, Replies s inst s' x y := by
  unfold HeartBeatService.reply at hs
  simp only [Option.bind_eq_bind, Option.bind_eq_some_iff] at hs
  obtain ⟨b, hb, hs⟩ := hs
  have hlt : inst < s.insts.length := (List.getElem?_eq_some_iff.mp hb).1
  have hpointer : b.timeoutEvent = pointer s inst := by
    unfold pointer
    rw [hb]
    rfl
  -- the record may as well be made after the cancel
  have hlog : HeartBeatService.cancel b.timeoutEvent { s with log := s.log ++ [.replied inst] }
      = { s.cancel (pointer s inst) with
          log := (s.cancel (pointer s inst)).log ++ [.replied inst] } := by
    rw [hpointer, cancel_log]
    cases pointer s inst <;> rfl
  rw [hlog] at hs
  have hright := (h.cancel (pointer s inst)).replied (not_owns_cancel h inst)
  obtain ⟨x, y, hp⟩ := hright.allocated.heartbeatPing hs
  have howns := (h.allocated.cancel (pointer s inst)).2
  refine ⟨x, y, hright.pings_of ?_ (not_owns_cancel h inst) hp, fun z i k hz hne => ?_,
    fun z i k => ?_, fun i => ?_⟩
  · show inst < (s.cancel (pointer s inst)).insts.length
    rw [cancel_insts]
    exact hlt
  · exact (hp.fresh z i k ((howns z i k).mpr ⟨hz, hne⟩)).1
  · rw [hp.owns]
    exact or_congr_left (howns z i k)
  · exact (isLive_of_pings hp).trans (isLive_congr (cancel_insts _))

structure Destroys (s : HeartBeatService) (inst : Option Nat) (s' : HeartBeatService) : Prop where
  right : PointsRight s'
  owns : ∀ x i k, Owns s' x i k ↔ Owns s x i k ∧ ∀ j, inst = some j → pointer s j ≠ some x.callback
  live : ∀ i, IsLive s' i ↔ IsLive s i ∧ inst ≠ some i

theorem PointsRight.destroy (h : PointsRight s) (inst : Option Nat) :
    Destroys s inst (s.destroy inst) := by
  cases inst with
  | none =>
    refine ⟨h, fun x i k => ?_, fun i => ?_⟩
    · exact (and_iff_left fun j hj => absurd hj.symm (Option.some_ne_none j)).symm
    · exact (and_iff_left (Option.some_ne_none i).symm).symm
  | some j =>
    have hcancel := h.cancel (pointer s j)
    have howns := (h.allocated.cancel (pointer s j)).2
    have hkill : s.destroy (some j) = { s.cancel (pointer s j) with
        insts := (s.cancel (pointer s j)).insts.modify j fun b => { b with live := false } } := by
      rw [cancel_insts]
      rfl
    rw [hkill]
    refine ⟨⟨⟨hcancel.allocated.matched, hcancel.allocated.places, hcancel.allocated.comps⟩,
      fun x i k hx => ?_, fun node i hi => ?_, fun x i hx => ?_, fun x i hx => ?_,
      hcancel.timedOut⟩, fun x i k => ?_, fun i => ?_⟩
    · show i < ((s.cancel (pointer s j)).insts.modify j _).length
      rw [length_modify]
      exact hcancel.made x i k hx
    · show i < ((s.cancel (pointer s j)).insts.modify j _).length
      rw [length_modify]
      exact hcancel.mapped node i hi
    · rw [pointer_kill]
      exact hcancel.timeouts x i hx
    · rw [pointer_kill]
      exact hcancel.pings x i hx
    · show Owns (s.cancel (pointer s j)) x i k ↔ _
      rw [howns]
      refine and_congr_right fun _ => ⟨fun hne j' hj' => ?_, fun hall => hall j rfl⟩
      cases hj'
      exact hne
    · rw [isLive_kill]
      refine and_congr ?_
        ⟨fun hne he => hne (Option.some.inj he).symm, fun hne he => hne (by rw [he])⟩
      exact isLive_congr (cancel_insts _)

theorem PointsRight.withMap (h : PointsRight s) {hbMap : Text → Option Nat}
    (hmap : ∀ node i, hbMap node = some i → i < s.insts.length) :
    PointsRight { s with hbMap } :=
  ⟨⟨h.allocated.matched, h.allocated.places, h.allocated.comps⟩, h.made, hmap, h.timeouts, h.pings,
    h.timedOut⟩

theorem destroy_length (inst : Option Nat) : (s.destroy inst).insts.length = s.insts.length := by
  cases inst with
  | none => rfl
  | some j => exact length_modify ..

structure Registers (s : HeartBeatService) (node : Text) (s₁ s' : HeartBeatService)
    (x y : Scheduled) : Prop where
  pings : Pings { s with insts := s.insts ++ [⟨true, none⟩] } s.insts.length s₁ x y
  made : PointsRight s₁
  destroys : Destroys s₁ (s.hbMap node) (s₁.destroy (s.hbMap node))
  eq : s' = { s₁.destroy (s.hbMap node) with
    hbMap := update s.hbMap node (some s.insts.length) }
  right : PointsRight s'

theorem PointsRight.registerNode (h : PointsRight s) (hs : s.registerNode node a = some s') :
    ∃ s₁ x y, Registers s node s₁ s' x y := by
  unfold HeartBeatService.registerNode at hs
  simp only [Option.bind_eq_bind, Option.bind_eq_some_iff] at hs
  obtain ⟨s₁, hping, hs⟩ := hs
  cases hs
  obtain ⟨x, y, hp⟩ := h.made_one.allocated.heartbeatPing hping
  have hlt : s.insts.length < (s.insts ++ [HeartBeat.mk true none]).length := by simp
  have hnew : ∀ z, ¬ Owns s z s.insts.length .timeout :=
    fun z hz => Nat.lt_irrefl _ (h.made z _ _ hz)
  have hmade := h.made_one.pings_of hlt hnew hp
  have hdestroys := hmade.destroy (s.hbMap node)
  refine ⟨s₁, x, y, hp, hmade, hdestroys, rfl, hdestroys.right.withMap fun node' i hi => ?_⟩
  rw [destroy_length, hp.insts, length_modify, length_append, length_singleton]
  by_cases hnode : node' = node
  · rw [hnode, update_self] at hi
    cases hi
    exact Nat.lt_succ_self _
  · rw [update_of_ne hnode] at hi
    exact Nat.lt_succ_of_lt (h.mapped node' i hi)

theorem timer_keeps {t t' : SafeTimer} {b : SafeTimer.Act} (hs : t.step b = some t')
    (hadd : ∀ now delta p, b ≠ .addEventAfter now delta p) (hcancel : ∀ p, b ≠ .cancelEvent p)
    (hiterate : b ≠ .iterate) :
    t'.schedule = t.schedule ∧ t'.events = t.events ∧ t'.places = t.places := by
  cases step_cases hs with
  | add _ => exact absurd rfl (hadd _ _ _)
  | cancel => exact absurd rfl (hcancel _)
  | iterate _ => exact absurd rfl hiterate
  | tick | read | wait | wakeUp | goOn => exact ⟨rfl, rfl, rfl⟩

structure Waits (s s' : HeartBeatService) : Prop where
  schedule : s'.timer.schedule = s.timer.schedule
  events : s'.timer.events = s.timer.events
  places : s'.timer.places = s.timer.places
  comps : s'.comps = s.comps
  insts : s'.insts = s.insts
  hbMap : s'.hbMap = s.hbMap
  log : s'.log = s.log

theorem waits_of_step {b : SafeTimer.Act} (hs : s.step (.timer b) = some s') : Waits s s' := by
  have hmap : ∀ {b : SafeTimer.Act},
      ((s.timer.step b).map fun timer => { s with timer }) = some s' →
      (∀ now delta p, b ≠ .addEventAfter now delta p) → (∀ p, b ≠ .cancelEvent p) →
      b ≠ .iterate → Waits s s' := by
    intro b hs hadd hcancel hiterate
    obtain ⟨t, ht, rfl⟩ := Option.map_eq_some_iff.mp hs
    obtain ⟨hschedule, hevents, hplaces⟩ := timer_keeps ht hadd hcancel hiterate
    exact ⟨hschedule, hevents, hplaces, rfl, rfl, rfl, rfl⟩
  cases b with
  | tick _ | readClock | wait | wakeUp | goOn =>
    exact hmap hs (fun _ _ _ => SafeTimer.Act.noConfusion) (fun _ => SafeTimer.Act.noConfusion)
      SafeTimer.Act.noConfusion
  | addEventAfter _ _ _ | cancelEvent _ | iterate => exact (Option.some_ne_none _ hs.symm).elim

theorem Waits.owns (h : Waits s s') (x : Scheduled) (i : Nat) (k : HeartBeatEvent) :
    Owns s' x i k ↔ Owns s x i k := by
  unfold Owns
  rw [h.schedule, h.comps]

theorem PointsRight.waits (h : PointsRight s) (hw : Waits s s') : PointsRight s' := by
  have hallocated : Allocated s' := by
    refine ⟨?_, fun x hx => ?_, fun x hx => ?_⟩
    · rw [hw.schedule, hw.events]
      exact h.allocated.matched
    · rw [hw.schedule] at hx
      rw [hw.places]
      exact h.allocated.places x hx
    · rw [hw.schedule] at hx
      rw [hw.comps]
      exact h.allocated.comps x hx
  refine h.fewer hallocated (fun x i k hx => (hw.owns x i k).mp hx) hw.insts hw.hbMap
    ⟨[], ?_, fun _ => not_mem_nil⟩ ?_
  · rw [hw.log, append_nil]
  · rw [hw.log]
    exact h.timedOut

theorem PointsRight.unregisterNode (h : PointsRight s) (node : Text) :
    PointsRight (s.unregisterNode node) := by
  refine (h.destroy (s.hbMap node)).right.withMap fun node' i hi => ?_
  rw [destroy_length]
  by_cases hnode : node' = node
  · rw [hnode, update_self] at hi
    exact absurd hi.symm (Option.some_ne_none i)
  · rw [update_of_ne hnode] at hi
    exact h.mapped node' i hi

theorem PointsRight.step {b : HeartBeatService.Act} (h : PointsRight s) (hs : s.step b = some s') :
    PointsRight s' := by
  cases b with
  | registerNode node a =>
    obtain ⟨_, _, _, hr⟩ := h.registerNode hs
    exact hr.right
  | unregisterNode node =>
    cases hs
    exact h.unregisterNode node
  | reply inst a =>
    obtain ⟨_, _, hr⟩ := h.reply hs
    exact hr.right
  | fire =>
    obtain ⟨_, hf⟩ := h.allocated.fire hs
    exact h.fires hf
  | timer b => exact h.waits (waits_of_step hs)

end Calls

/-! ## Safety -/

/-- What heartbeats owe the timer. -/
structure HeartBeatSafe (s : HeartBeatService) : Prop where
  live : ∀ x i k, Owns s x i k → IsLive s i
  single : ∀ x y i k, Owns s x i k → Owns s y i k → x = y

/-- When a step is safe: a heartbeat whose ping has not been sent is neither replied to nor
destroyed, and one that was destroyed is not replied to. -/
def HeartBeatOk (s : HeartBeatService) : HeartBeatService.Act → Prop
  | .registerNode node _ | .unregisterNode node =>
    ∀ i, s.hbMap node = some i → ∀ x, ¬ Owns s x i .ping
  | .reply inst _ => IsLive s inst ∧ ∀ x, ¬ Owns s x inst .ping
  | .fire | .timer _ => True

section Safety

variable {x y : Scheduled} {inst : Nat} {node : Text}

theorem heartBeatSafe_new (hbOpts : HeartBeatOpts) (clock : Nat) :
    HeartBeatSafe (HeartBeatService.new hbOpts clock) :=
  ⟨fun _ _ _ h => absurd h.1 not_mem_nil, fun _ _ _ _ h => absurd h.1 not_mem_nil⟩

theorem HeartBeatSafe.fewer (h : HeartBeatSafe s) (howns : ∀ x i k, Owns s' x i k → Owns s x i k)
    (hlive : ∀ x i k, Owns s' x i k → IsLive s i → IsLive s' i) : HeartBeatSafe s' :=
  ⟨fun x i k hx => hlive x i k hx (h.live x i k (howns x i k hx)),
    fun x y i k hx hy => h.single x y i k (howns x i k hx) (howns y i k hy)⟩

theorem single_of_owns {before : Scheduled → Nat → HeartBeatEvent → Prop}
    (howns : ∀ z i k, Owns s' z i k ↔ before z i k ∨ z = x ∧ i = inst ∧ k = .ping
      ∨ z = y ∧ i = inst ∧ k = .timeout)
    (hnone : ∀ z k, ¬ before z inst k)
    (hsingle : ∀ z w i k, before z i k → before w i k → z = w) {z w : Scheduled} {i : Nat}
    {k : HeartBeatEvent} (hz : Owns s' z i k) (hw : Owns s' w i k) : z = w := by
  rcases (howns z i k).mp hz with hz | ⟨rfl, rfl, rfl⟩ | ⟨rfl, rfl, rfl⟩
  · rcases (howns w i k).mp hw with hw | ⟨_, rfl, _⟩ | ⟨_, rfl, _⟩
    · exact hsingle z w i k hz hw
    · exact absurd hz (hnone z k)
    · exact absurd hz (hnone z k)
  · rcases (howns w i _).mp hw with hw | ⟨rfl, _, _⟩ | ⟨_, _, hk⟩
    · exact absurd hw (hnone w _)
    · rfl
    · exact HeartBeatEvent.noConfusion hk
  · rcases (howns w i _).mp hw with hw | ⟨_, _, hk⟩ | ⟨rfl, _, _⟩
    · exact absurd hw (hnone w _)
    · exact HeartBeatEvent.noConfusion hk
    · rfl

theorem Replies.safe_iff (h : PointsRight s) (hsafe : HeartBeatSafe s)
    (hr : Replies s inst s' x y) :
    HeartBeatSafe s' ↔ IsLive s inst ∧ ∀ z, ¬ Owns s z inst .ping := by
  constructor
  · intro hsafe'
    have hx : Owns s' x inst .ping := (hr.owns x inst _).mpr (Or.inr (Or.inl ⟨rfl, rfl, rfl⟩))
    refine ⟨(hr.live inst).mp (hsafe'.live x inst _ hx), fun z hz => ?_⟩
    -- the old ping is not what the heartbeat points to, so it is still there
    have hne := h.pings z inst hz
    have hz' : Owns s' z inst .ping := (hr.owns z inst _).mpr (Or.inl ⟨hz, hne⟩)
    exact hr.fresh z inst _ hz hne (congrArg Scheduled.callback (hsafe'.single z x inst _ hz' hx))
  · rintro ⟨hlive, hno⟩
    have hnone : ∀ z k, ¬ (Owns s z inst k ∧ pointer s inst ≠ some z.callback) := by
      rintro z k ⟨hz, hne⟩
      cases k with
      | ping => exact hno z hz
      | timeout => exact hne (h.timeouts z inst hz).1
    refine ⟨fun z i k hz => (hr.live i).mpr ?_, fun z w i k hz hw => ?_⟩
    · rcases (hr.owns z i k).mp hz with ⟨hz, _⟩ | ⟨_, rfl, _⟩ | ⟨_, rfl, _⟩
      · exact hsafe.live z i k hz
      · exact hlive
      · exact hlive
    · exact single_of_owns hr.owns hnone (fun z w i k hz hw => hsafe.single z w i k hz.1 hw.1) hz hw

theorem Destroys.safe_iff (h : PointsRight s) (hsafe : HeartBeatSafe s)
    {old : Option Nat} (hd : Destroys s old s') :
    HeartBeatSafe s' ↔ ∀ i, old = some i → ∀ z, ¬ Owns s z i .ping := by
  constructor
  · intro hsafe' i hi z hz
    have hz' : Owns s' z i .ping := by
      refine (hd.owns z i _).mpr ⟨hz, fun j hj => ?_⟩
      rw [← Option.some.inj (hi.symm.trans hj)]
      exact h.pings z i hz
    exact ((hd.live i).mp (hsafe'.live z i _ hz')).2 hi
  · intro hno
    refine hsafe.fewer (fun z i k hz => ((hd.owns z i k).mp hz).1) fun z i k hz hlive => ?_
    obtain ⟨hz, hne⟩ := (hd.owns z i k).mp hz
    refine (hd.live i).mpr ⟨hlive, fun hi => ?_⟩
    cases k with
    | ping => exact hno i hi z hz
    | timeout => exact hne i hi (h.timeouts z i hz).1

theorem heartBeatSafe_withMap {hbMap : Text → Option Nat} :
    HeartBeatSafe { s with hbMap } ↔ HeartBeatSafe s :=
  ⟨fun h => ⟨h.live, h.single⟩, fun h => ⟨h.live, h.single⟩⟩

theorem HeartBeatSafe.made (h : PointsRight s) (hsafe : HeartBeatSafe s)
    (hp : Pings { s with insts := s.insts ++ [⟨true, none⟩] } s.insts.length s' x y) :
    HeartBeatSafe s' := by
  have hnew : ∀ z k, ¬ Owns s z s.insts.length k :=
    fun z k hz => Nat.lt_irrefl _ (h.made z _ k hz)
  refine ⟨fun z i k hz => (isLive_of_pings hp).mpr (isLive_made.mpr ?_), fun z w i k hz hw => ?_⟩
  · rcases (hp.owns z i k).mp hz with hz | ⟨_, hi, _⟩ | ⟨_, hi, _⟩
    · exact Or.inl (hsafe.live z i k hz)
    · exact Or.inr hi
    · exact Or.inr hi
  · exact single_of_owns hp.owns hnew (fun z w i k hz hw => hsafe.single z w i k hz hw) hz hw

/-- **A step is safe if and only if** it is one of `HeartBeatOk`. -/
theorem HeartBeatSafe.step_iff {b : HeartBeatService.Act} (h : PointsRight s)
    (hsafe : HeartBeatSafe s) (hs : s.step b = some s') : HeartBeatSafe s' ↔ HeartBeatOk s b := by
  cases b with
  | registerNode node a =>
    obtain ⟨s₁, x, y, hr⟩ := h.registerNode hs
    rw [hr.eq, heartBeatSafe_withMap, hr.destroys.safe_iff hr.made (hsafe.made h hr.pings)]
    refine forall_congr' fun i => imp_congr_right fun hi => forall_congr' fun z => not_congr ?_
    -- the old heartbeat is not the new one
    have hne : i ≠ s.insts.length := Nat.ne_of_lt (h.mapped node i hi)
    rw [hr.pings.owns]
    exact ⟨fun hz => hz.resolve_right fun hz => hne (hz.elim (·.2.1) (·.2.1)), Or.inl⟩
  | unregisterNode node =>
    cases hs
    exact heartBeatSafe_withMap.trans ((h.destroy (s.hbMap node)).safe_iff h hsafe)
  | reply inst a =>
    obtain ⟨x, y, hr⟩ := h.reply hs
    exact hr.safe_iff h hsafe
  | fire =>
    obtain ⟨now, hf⟩ := h.allocated.fire hs
    refine iff_of_true (hsafe.fewer (fun z i k hz => ((hf.owns z i k).mp hz).1) ?_) trivial
    exact fun z i k _ hlive => (isLive_congr hf.insts).mpr hlive
  | timer b =>
    have hw := waits_of_step hs
    refine iff_of_true (hsafe.fewer (fun z i k hz => (hw.owns z i k).mp hz) ?_) trivial
    exact fun z i k _ hlive => (isLive_congr hw.insts).mpr hlive

end Safety

/-- **The events of a heartbeat are safe as long as its ping is sent first.** The error handler runs
for an unanswered ping only. A run in which no heartbeat is replied to or destroyed while its ping
is in the timer, and none is replied to that was destroyed, keeps every event with a live heartbeat,
and one of each kind; and the first step that is none of this leaves a state that does not. -/
theorem heartBeat_safe_iff (hbOpts : HeartBeatOpts) (clock : Nat)
    (h : Reachable HeartBeatService.step Unrestricted (HeartBeatService.new hbOpts clock) s) :
    TimedOutRight s.log
      ∧ (Reachable HeartBeatService.step HeartBeatOk (HeartBeatService.new hbOpts clock) s →
        HeartBeatSafe s)
      ∧ (HeartBeatSafe s → ∀ b s', s.step b = some s' → (HeartBeatSafe s' ↔ HeartBeatOk s b)) := by
  have hright : PointsRight s :=
    h.invariant (pointsRight_new hbOpts clock) fun _ _ _ hright _ hs => hright.step hs
  refine ⟨hright.timedOut, fun hok => ?_, fun hsafe b s' hs => hsafe.step_iff hright hs⟩
  have hinv : PointsRight s ∧ HeartBeatSafe s :=
    hok.invariant (I := fun s => PointsRight s ∧ HeartBeatSafe s)
      ⟨pointsRight_new hbOpts clock, heartBeatSafe_new hbOpts clock⟩
      fun _ _ _ hinv hok hs => ⟨hinv.1.step hs, (hinv.2.step_iff hinv.1 hs).mpr hok⟩
  exact hinv.2

/-! ## Runs -/

instance (x : Scheduled) (i : Nat) (k : HeartBeatEvent) : Decidable (Owns s x i k) :=
  inferInstanceAs (Decidable (_ ∧ _))

instance (i : Nat) : Decidable (IsLive s i) :=
  decidable_of_iff ((s.insts[i]?).any HeartBeat.live = true) (Option.any_eq_true ..)

instance (i : Nat) (k : HeartBeatEvent) : Decidable (∀ x, ¬ Owns s x i k) :=
  decidable_of_iff (∀ x ∈ s.timer.schedule, s.comps x.callback ≠ some (i, k))
    (forall_congr' fun _ => not_and.symm)

instance : ∀ (s : HeartBeatService) (b : HeartBeatService.Act), Decidable (HeartBeatOk s b)
  | s, .registerNode node _ | s, .unregisterNode node =>
    inferInstanceAs (Decidable (∀ i ∈ s.hbMap node, ∀ x, ¬ Owns s x i .ping))
  | s, .reply inst _ => inferInstanceAs (Decidable (IsLive s inst ∧ ∀ x, ¬ Owns s x inst .ping))
  | _, .fire | _, .timer _ => .isTrue trivial

/-- A ping is sent and replied to. -/
theorem heartBeat_safe_replied :
    ∃ s, Reachable HeartBeatService.step HeartBeatOk (HeartBeatService.new ⟨5, 1⟩ 0) s
      ∧ s.log = [.began 0 1, .pinged 0, .replied 0, .began 0 3] ∧ HeartBeatSafe s := by
  have hrun : (run HeartBeatService.step HeartBeatOk (HeartBeatService.new ⟨5, 1⟩ 0)
      [.registerNode [1] ⟨10, 0, 11, 0⟩, .timer (.tick 1), .timer .readClock, .fire,
        .reply 0 ⟨10, 1, 12, 1⟩]).map
      (fun s => decide (s.log = [.began 0 1, .pinged 0, .replied 0, .began 0 3])) = some true := by
    decide +kernel
  obtain ⟨s, hs, htest⟩ := Reachable.of_run_decide hrun
  exact ⟨s, hs, htest, (heartBeat_safe_iff ⟨5, 1⟩ 0 hs.unrestricted).2.1 hs⟩

/-- A node that is unregistered before its ping is sent leaves the ping, which captures the
heartbeat that is gone; and a reply that comes before it leaves two. -/
theorem heartBeat_pings_left :
    (∃ s, Reachable HeartBeatService.step Unrestricted (HeartBeatService.new ⟨5, 1⟩ 0) s
      ∧ Owns s ⟨0, 1, 10⟩ 0 .ping ∧ ¬ IsLive s 0)
    ∧ ∃ s, Reachable HeartBeatService.step Unrestricted (HeartBeatService.new ⟨5, 1⟩ 0) s
      ∧ IsLive s 0 ∧ Owns s ⟨0, 1, 10⟩ 0 .ping ∧ Owns s ⟨2, 1, 12⟩ 0 .ping := by
  have hdead : (run HeartBeatService.step Unrestricted (HeartBeatService.new ⟨5, 1⟩ 0)
      [.registerNode [1] ⟨10, 0, 11, 0⟩, .unregisterNode [1]]).map
      (fun s => decide (Owns s ⟨0, 1, 10⟩ 0 .ping ∧ ¬ IsLive s 0)) = some true := by decide +kernel
  have htwo : (run HeartBeatService.step Unrestricted (HeartBeatService.new ⟨5, 1⟩ 0)
      [.registerNode [1] ⟨10, 0, 11, 0⟩, .reply 0 ⟨12, 0, 13, 0⟩]).map
      (fun s => decide (IsLive s 0 ∧ Owns s ⟨0, 1, 10⟩ 0 .ping ∧ Owns s ⟨2, 1, 12⟩ 0 .ping))
      = some true := by decide +kernel
  obtain ⟨s, hs, htest⟩ := Reachable.of_run_test hdead
  obtain ⟨t, ht, htest'⟩ := Reachable.of_run_test htwo
  exact ⟨⟨s, hs, of_decide_eq_true htest⟩, t, ht, of_decide_eq_true htest'⟩

end HDCS.Proof
