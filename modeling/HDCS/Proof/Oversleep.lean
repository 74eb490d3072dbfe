import HDCS.Proof.SafeTimer

/-!
# When the timer oversleeps

The thread decides how long to sleep under `map_lock`, and starts to sleep after it has
given the lock back. `add_event_at` notifies whoever is asleep at the moment, so an event
that comes first in between notifies nobody, and the thread sleeps past it. The timeout
is counted from the start of the wait although it was worked out from `now_l`, so any
time that passes in between is slept on top of it.

A thread that is already asleep is always notified in time (`oversleeps_step`): whether it
oversleeps is settled when it starts to wait.
-/

namespace HDCS.Proof

open Lib SafeTimer Lib.Machine List

def NothingBefore (time : Option Int) (schedule : List Scheduled) : Prop :=
  ∀ x ∈ schedule, ∃ w ∈ time, w ≤ x.time

/-- Asleep past a deadline. A thread that has a notification pending is no longer asleep. -/
def Oversleeps (s : SafeTimer) : Prop :=
  s.asserted = false ∧ ∃ time, s.thread = .asleep time ∧ ¬ NothingBefore time s.schedule

/-- If the thread starts to wait, then not past a deadline. -/
def Timely (s : SafeTimer) (a : Act) : Prop :=
  a = .wait → s.asserted = false → ∀ now period, s.thread = .leaving now period →
    NothingBefore (period.map ((s.clock : Int) + ·)) s.schedule

variable {s s' : SafeTimer} {a : Act} {x : Scheduled} {schedule : List Scheduled} {now : Nat}

theorem head_insertScheduled (x : Scheduled) (schedule : List Scheduled) :
    (insertScheduled x schedule).head? = some x ∨ ∃ y ∈ schedule, y.time ≤ x.time := by
  cases schedule with
  | nil => exact Or.inl rfl
  | cons y l =>
    unfold insertScheduled
    rw [orderedInsert_cons]
    split
    · exact Or.inl rfl
    · rename_i hge
      exact Or.inr ⟨y, mem_cons_self, Nat.le_of_not_lt hge⟩

theorem NothingBefore.insert {time : Option Int} (h : NothingBefore time schedule)
    (hx : ∃ y ∈ schedule, y.time ≤ x.time) : NothingBefore time (insertScheduled x schedule) := by
  intro z hz
  rcases mem_insertScheduled.mp hz with rfl | hz
  · obtain ⟨y, hy, hle⟩ := hx
    obtain ⟨w, hw, hwy⟩ := h y hy
    exact ⟨w, hw, by omega⟩
  · exact h z hz

theorem NothingBefore.subset {time : Option Int} {l : List Scheduled}
    (h : NothingBefore time schedule) (hl : l ⊆ schedule) : NothingBefore time l :=
  fun x hx => h x (hl hx)

/-! ### The operations -/

theorem addEventAt_asserted (time callback : Nat)
    (h : (s.addEventAt time callback).asserted = false) :
    s.asserted = false ∧ s.events callback = none := by
  unfold addEventAt at h
  split at h
  · cases h
  · rename_i hnone
    exact ⟨h, hnone⟩

theorem schedule_addEventAt (time callback : Nat) :
    (s.addEventAt time callback).schedule
      = insertScheduled ⟨s.places, time, callback⟩ s.schedule := by
  unfold addEventAt
  split <;> rfl

theorem thread_addEventAt {time callback : Nat} (hnone : s.events callback = none)
    {wakeUp : Option Int} (h : (s.addEventAt time callback).thread = .asleep wakeUp) :
    s.thread = .asleep wakeUp ∧ ∃ y ∈ s.schedule, y.time ≤ time := by
  unfold addEventAt at h
  rw [hnone] at h
  dsimp only at h
  split at h
  · -- it comes first, and everyone is notified
    cases hthread : s.thread with
    | asleep w | starting | scanning | leaving | waking =>
      rw [hthread] at h
      cases h
  · rename_i hhead
    exact ⟨h, (head_insertScheduled _ _).resolve_left hhead⟩

theorem cancelEvent_frame (callback : Nat) :
    (s.cancelEvent callback).thread = s.thread ∧ (s.cancelEvent callback).asserted = s.asserted
      ∧ (s.cancelEvent callback).schedule ⊆ s.schedule := by
  unfold SafeTimer.cancelEvent
  split
  · exact ⟨rfl, rfl, List.Subset.refl _⟩
  · exact ⟨rfl, rfl, filter_sublist.subset⟩

theorem thread_iterate (h : (s.iterate now).asserted = false) :
    ∃ period, (s.iterate now).thread = .leaving now period := by
  unfold SafeTimer.iterate at h ⊢
  dsimp only at h ⊢
  split
  · exact ⟨_, rfl⟩
  · rename_i hcons
    rw [hcons] at h
    dsimp only at h
    split at h
    · rename_i hpos
      rw [if_pos hpos]
      exact ⟨_, rfl⟩
    · cases h

/-- **Only starting to wait can oversleep.** -/
theorem oversleeps_step (h : ¬ Oversleeps s) (hs : s.step a = some s') :
    Oversleeps s' ↔ ¬ Timely s a := by
  cases step_cases hs with
  | tick =>
    refine iff_of_false ?_ (not_not_intro nofun)
    rintro ⟨hok, time, hthread, hlate⟩
    exact h ⟨hok, time, hthread, hlate⟩
  | read | wakeUp | goOn =>
    refine iff_of_false ?_ (not_not_intro nofun)
    rintro ⟨-, time, hthread, -⟩
    cases hthread
  | @add now delta callback _ =>
    refine iff_of_false ?_ (not_not_intro nofun)
    rintro ⟨hok, time, hthread, hlate⟩
    obtain ⟨hok, hnone⟩ := addEventAt_asserted _ _ hok
    obtain ⟨hthread, hbehind⟩ := thread_addEventAt hnone hthread
    rw [schedule_addEventAt] at hlate
    exact h ⟨hok, time, hthread, fun hnothing => hlate (hnothing.insert hbehind)⟩
  | @cancel callback =>
    refine iff_of_false ?_ (not_not_intro nofun)
    rintro ⟨hok, time, hthread, hlate⟩
    obtain ⟨hsame, hasserted, hsub⟩ := cancelEvent_frame (s := s) callback
    rw [hsame] at hthread
    rw [hasserted] at hok
    exact h ⟨hok, time, hthread, fun hnothing => hlate (hnothing.subset hsub)⟩
  | @iterate now _ =>
    refine iff_of_false ?_ (not_not_intro nofun)
    rintro ⟨hok, time, hthread, -⟩
    obtain ⟨period, hleaving⟩ := thread_iterate hok
    rw [hleaving] at hthread
    cases hthread
  | @wait now period hthread =>
    constructor
    · rintro ⟨hok, time, heq, hlate⟩ htimely
      obtain rfl := TimerThread.asleep.inj heq
      exact hlate (htimely rfl hok now period hthread)
    · intro hnot
      by_contra hno
      refine hnot fun _ hok now' period' hthread' => ?_
      obtain ⟨rfl, rfl⟩ := TimerThread.leaving.inj (hthread.symm.trans hthread')
      by_contra hlate
      exact hno ⟨hok, _, rfl, hlate⟩

/-! ## Runs that do not dawdle -/

/--
While the thread is between its scan and its wait nothing is added that comes first, and
a wait with a timeout starts when the clock still shows what it was worked out from.
-/
def Prompt (s : SafeTimer) : Act → Prop
  | .addEventAfter now delta _ =>
    match s.thread with
    | .leaving _ _ => ∃ x ∈ s.schedule, x.time ≤ (now + delta) % 2 ^ 64
    | _ => True
  | .wait =>
    match s.thread with
    | .leaving now (some _) => s.clock = now
    | _ => True
  | _ => True

instance (s : SafeTimer) : ∀ a, Decidable (Prompt s a)
  | .addEventAfter now delta _ =>
    match h : s.thread with
    | .leaving _ _ =>
      decidable_of_iff (∃ x ∈ s.schedule, x.time ≤ (now + delta) % 2 ^ 64) (by simp [Prompt, h])
    | .starting | .scanning _ | .asleep _ | .waking => .isTrue (by simp [Prompt, h])
  | .wait =>
    match h : s.thread with
    | .leaving now (some _) => decidable_of_iff (s.clock = now) (by simp [Prompt, h])
    | .leaving _ none | .starting | .scanning _ | .asleep _ | .waking =>
      .isTrue (by simp [Prompt, h])
  | .tick _ | .cancelEvent _ | .readClock | .iterate | .wakeUp | .goOn =>
    inferInstanceAs (Decidable True)

structure Punctual (s : SafeTimer) : Prop where
  matched : Matched s.schedule s.events
  ascending : Ascending s.schedule
  times : ∀ x ∈ s.schedule, x.time < 2 ^ 64
  places : ∀ x ∈ s.schedule, x.place < s.places
  leaving : ∀ now period, s.thread = .leaving now period →
    NothingBefore (period.map ((now : Int) + ·)) s.schedule

theorem punctual_new (clock : Nat) : Punctual (new clock) where
  matched := (timerInv_new clock).matched
  ascending := List.Pairwise.nil
  times := fun x hx => absurd hx (by simp [new])
  places := fun x hx => absurd hx (by simp [new])
  leaving := fun _ _ hthread => absurd hthread (by simp [new])

theorem notify_eq_leaving {t : TimerThread} {period : Option Int}
    (h : notify t = .leaving now period) : t = .leaving now period := by
  cases t with
  | asleep w => cases h
  | starting | scanning | leaving | waking => exact h

theorem Punctual.add (h : Punctual s) {time callback : Nat} (htime : time < 2 ^ 64)
    (hbehind : ∀ now period, s.thread = .leaving now period → ∃ x ∈ s.schedule, x.time ≤ time)
    (hok : (s.addEventAt time callback).asserted = false) :
    Punctual (s.addEventAt time callback) := by
  obtain ⟨-, hnone⟩ := addEventAt_asserted _ _ hok
  have hcb : ∀ y ∈ s.schedule, y.callback ≠ callback := by
    rintro y hy rfl
    rw [h.matched.find hy] at hnone
    cases hnone
  unfold addEventAt
  rw [hnone]
  refine ⟨h.matched.insert (fun y hy => Nat.ne_of_lt (h.places y hy)) hcb, h.ascending.insert,
    ?_, ?_, ?_⟩
  · intro x hx
    rcases mem_insertScheduled.mp hx with rfl | hx
    · exact htime
    · exact h.times x hx
  · intro x hx
    rcases mem_insertScheduled.mp hx with rfl | hx
    · exact Nat.lt_succ_self _
    · exact Nat.lt_succ_of_lt (h.places x hx)
  · intro now period hthread
    have hthread : s.thread = .leaving now period := by
      dsimp only at hthread
      split at hthread
      · exact notify_eq_leaving hthread
      · exact hthread
    exact (h.leaving now period hthread).insert (hbehind now period hthread)

theorem Punctual.cancel (h : Punctual s) (callback : Nat) : Punctual (s.cancelEvent callback) := by
  unfold SafeTimer.cancelEvent
  split
  · exact ⟨h.matched, h.ascending, h.times, h.places, h.leaving⟩
  · rename_i place hfind
    obtain ⟨x, hx, rfl, rfl⟩ := (h.matched.lookup _ _).mp hfind
    obtain ⟨hmatched, hmem⟩ := h.matched.erase hx
    refine ⟨hmatched, h.ascending.sublist filter_sublist, ?_, ?_, ?_⟩
    · exact fun y hy => h.times y ((hmem y).mp hy).1
    · exact fun y hy => h.places y ((hmem y).mp hy).1
    · exact fun now period hthread =>
        (h.leaving now period hthread).subset filter_sublist.subset

theorem waitPeriod_of_pos {first now : Nat} (hlt : now < first) (hfirst : first < 2 ^ 64)
    (hpos : 0 < waitPeriod first now) : waitPeriod first now = (first : Int) - now := by
  have hlow : first - now < 2 ^ 63 := by
    by_contra hge
    unfold waitPeriod at hpos
    rw [Int.bmod_def, Int.emod_eq_of_lt (by omega) (by omega)] at hpos
    split at hpos <;> omega
  unfold waitPeriod
  exact Int.bmod_eq_of_le (by omega) (by omega)

theorem Punctual.iterate (h : Punctual s) (hok : (s.iterate now).asserted = false) :
    Punctual (s.iterate now) := by
  obtain ⟨hmatched, hschedule, -⟩ := expire_foldl now h.matched
  rw [hschedule] at hmatched
  have hsub : (s.schedule.filter fun x => now < x.time) ⊆ s.schedule := filter_sublist.subset
  have hasc : Ascending (s.schedule.filter fun x => now < x.time) :=
    h.ascending.sublist filter_sublist
  unfold SafeTimer.iterate at hok ⊢
  dsimp only at hok ⊢
  rw [hschedule] at hok ⊢
  split
  · rename_i hnil
    refine ⟨hmatched, hasc, fun x hx => h.times x (hsub hx), fun x hx => h.places x (hsub hx), ?_⟩
    intro now' period _ x hx
    dsimp only at hx
    rw [hnil] at hx
    exact absurd hx not_mem_nil
  · rename_i x l hcons
    rw [hcons] at hok
    dsimp only at hok
    have hx : x ∈ (s.schedule.filter fun x => now < x.time) := by
      rw [hcons]
      exact mem_cons_self
    have hlt : now < x.time := of_decide_eq_true (mem_filter.mp hx).2
    split at hok
    · rename_i hpos
      rw [if_pos hpos]
      refine ⟨hmatched, hasc, fun x hx => h.times x (hsub hx), fun x hx => h.places x (hsub hx), ?_⟩
      intro now' period hthread y hy
      obtain ⟨rfl, rfl⟩ := TimerThread.leaving.inj hthread
      -- the first deadline is what the thread will sleep until
      have hfirst : x.time ≤ y.time := by
        dsimp only at hy
        rw [hcons] at hy hasc
        rcases mem_cons.mp hy with rfl | hy
        · exact Nat.le_refl _
        · exact (pairwise_cons.mp hasc).1 y hy
      rw [waitPeriod_of_pos hlt (h.times x (hsub hx)) hpos]
      refine ⟨_, rfl, ?_⟩
      dsimp only
      omega
    · cases hok

theorem asserted_step (hs : s.step a = some s') (hok : s'.asserted = false) :
    s.asserted = false := by
  cases step_cases hs with
  | add _ => exact (addEventAt_asserted _ _ hok).1
  | cancel => exact (cancelEvent_frame (s := s) _).2.1 ▸ hok
  | iterate _ =>
    unfold SafeTimer.iterate at hok
    dsimp only at hok
    split at hok
    · exact hok
    · split at hok
      · exact hok
      · cases hok
  | tick | read | wait | wakeUp | goOn => exact hok

theorem punctual_step (h : Punctual s) (hprompt : Prompt s a) (hs : s.step a = some s')
    (hok : s'.asserted = false) : Punctual s' := by
  cases step_cases hs with
  | @add now delta callback _ =>
    refine h.add (Nat.mod_lt _ (by decide)) (fun now' period hthread => ?_) hok
    unfold Prompt at hprompt
    rw [hthread] at hprompt
    exact hprompt
  | @cancel callback => exact h.cancel callback
  | @iterate now _ => exact h.iterate hok
  | tick => exact ⟨h.matched, h.ascending, h.times, h.places, h.leaving⟩
  | read | wait | wakeUp | goOn =>
    exact ⟨h.matched, h.ascending, h.times, h.places, fun _ _ hthread => nomatch hthread⟩

theorem punctual_reachable {clock : Nat} (h : Reachable step Prompt (new clock) s) :
    s.asserted = false → Punctual s :=
  Reachable.invariant (I := fun s => s.asserted = false → Punctual s)
    (fun _ => punctual_new clock)
    (fun _ _ _ hinv hprompt hs hok => punctual_step (hinv (asserted_step hs hok)) hprompt hs hok) h

theorem timely_of_prompt {clock : Nat} (h : Reachable step Prompt (new clock) s)
    (hprompt : Prompt s a) : Timely s a := by
  rintro rfl hok now period hthread
  have hleaving := (punctual_reachable h hok).leaving now period hthread
  cases period with
  | none => exact hleaving
  | some p =>
    unfold Prompt at hprompt
    rw [hthread] at hprompt
    dsimp only at hprompt
    rw [hprompt]
    exact hleaving

theorem not_oversleeps_reachable {clock : Nat} (h : Reachable step Prompt (new clock) s) :
    ¬ Oversleeps s := by
  induction h with
  | init =>
    rintro ⟨-, time, hthread, -⟩
    cases hthread
  | tail hreach hprompt hs ih =>
    rw [oversleeps_step ih hs, not_not]
    exact timely_of_prompt hreach hprompt

/--
**The timer does not oversleep in a run that does not dawdle**, and from any state of such a
run a step oversleeps if and only if it starts a wait past something that is scheduled.
-/
theorem timer_sleeps_in_time {clock : Nat} (h : Reachable step Prompt (new clock) s) :
    ¬ Oversleeps s ∧ ∀ a s', s.step a = some s' → (Oversleeps s' ↔ ¬ Timely s a) :=
  ⟨not_oversleeps_reachable h, fun _ _ hs => oversleeps_step (not_oversleeps_reachable h) hs⟩

/-- Asleep until the first deadline, notified of an earlier one, and asleep until that. -/
theorem timer_sleeps_until_first : ∃ s, Reachable step Prompt (new 100) s
    ∧ s.schedule = [⟨1, 130, 8⟩, ⟨0, 150, 7⟩] ∧ s.thread = .asleep (some 130) ∧ ¬ Oversleeps s := by
  have hrun : (run step Prompt (new 100)
      [.addEventAfter 100 50 7, .readClock, .iterate, .wait, .addEventAfter 100 30 8, .goOn,
        .readClock, .iterate, .wait]).map
      (fun s => decide (s.schedule = [⟨1, 130, 8⟩, ⟨0, 150, 7⟩] ∧ s.thread = .asleep (some 130)))
        = some true := by decide +kernel
  obtain ⟨s, hs, hschedule, hthread⟩ := Reachable.of_run_decide hrun
  exact ⟨s, hs, hschedule, hthread, (timer_sleeps_in_time hs).1⟩

/--
An event that is added between the scan of an empty schedule and the wait is slept
through, and a deadline is slept past if the clock moves on before the wait.
-/
theorem timer_oversleeps :
    (∃ s, Reachable step (fun _ _ => True) (new 100) s ∧ s.schedule = [⟨0, 150, 7⟩]
      ∧ s.thread = .asleep none ∧ Oversleeps s)
    ∧ ∃ s, Reachable step (fun _ _ => True) (new 100) s ∧ s.schedule = [⟨0, 150, 7⟩]
      ∧ s.thread = .asleep (some 160) ∧ Oversleeps s := by
  constructor
  · have hrun : (run step (fun _ _ => True) (new 100)
        [.readClock, .iterate, .addEventAfter 100 50 7, .wait]).map
        (fun s => decide (s.schedule = [⟨0, 150, 7⟩] ∧ s.thread = .asleep none
          ∧ s.asserted = false))
          = some true := by decide +kernel
    obtain ⟨s, hs, hschedule, hthread, hok⟩ := Reachable.of_run_decide hrun
    refine ⟨s, hs, hschedule, hthread, hok, none, hthread, fun hnothing => ?_⟩
    obtain ⟨w, hw, -⟩ := hnothing ⟨0, 150, 7⟩ (by simp [hschedule])
    cases hw
  · have hrun : (run step (fun _ _ => True) (new 100)
        [.addEventAfter 100 50 7, .readClock, .iterate, .tick 110, .wait]).map
        (fun s => decide (s.schedule = [⟨0, 150, 7⟩] ∧ s.thread = .asleep (some 160)
          ∧ s.asserted = false)) = some true := by decide +kernel
    obtain ⟨s, hs, hschedule, hthread, hok⟩ := Reachable.of_run_decide hrun
    refine ⟨s, hs, hschedule, hthread, hok, some 160, hthread, fun hnothing => ?_⟩
    obtain ⟨w, hw, hle⟩ := hnothing ⟨0, 150, 7⟩ (by simp [hschedule])
    cases hw
    cases hle

end HDCS.Proof
