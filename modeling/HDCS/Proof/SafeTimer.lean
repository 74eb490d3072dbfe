import HDCS.Core.SafeTimer

/-!
# The timer delivers every event once, in time

What a timer is for can be said about its log alone. Something that was added is
outstanding until it is cancelled or completed, and the log is lawful if every entry fits
what was outstanding before it (`Lawful`): a cancel takes off what is outstanding or finds
nothing, and an iteration completes what is outstanding and due. That nothing is
completed twice, early or after a cancel follows from this.

The two maps of the timer hold what is outstanding. The loop of an iteration erases
while it goes, and what it erases is always the element it is at.
-/

namespace HDCS.Proof

open Lib SafeTimer Function Lib.Machine List

/-! ## Logs -/

def completed (log : List TimerEvent) : List Scheduled :=
  log.flatMap fun
    | .iterated _ l => l
    | _ => []

structure Outstanding (log : List TimerEvent) (x : Scheduled) : Prop where
  added : .added x ∈ log
  notCancelled : .cancelled x.callback (some x.place) ∉ log
  notCompleted : x ∉ completed log

def Fits (log : List TimerEvent) : TimerEvent → Prop
  | .added x => ∀ y, .added y ∈ log → y.place ≠ x.place
  | .cancelled callback none => ∀ x, Outstanding log x → x.callback ≠ callback
  | .cancelled callback (some place) =>
    ∃ x, Outstanding log x ∧ x.callback = callback ∧ x.place = place
  | .iterated now l => l.Nodup ∧ ∀ x, x ∈ l ↔ Outstanding log x ∧ x.time ≤ now

def Lawful (log : List TimerEvent) : Prop :=
  ∀ before e after, log = before ++ e :: after → Fits before e

variable {log : List TimerEvent} {e : TimerEvent} {x y : Scheduled}

theorem lawful_nil : Lawful [] := by
  intro before e after h
  exact absurd h (by simp)

theorem lawful_snoc : Lawful (log ++ [e]) ↔ Lawful log ∧ Fits log e := by
  constructor
  · intro h
    refine ⟨?_, h log e [] rfl⟩
    rintro before e' after rfl
    exact h before e' (after ++ [e]) (by simp)
  · rintro ⟨h, hfits⟩ before e' after heq
    rcases eq_nil_or_concat after with rfl | ⟨after, e'', rfl⟩
    · obtain ⟨rfl, hlast⟩ := append_inj' heq rfl
      rw [← singleton_inj.mp hlast]
      exact hfits
    · rw [concat_eq_append, ← cons_append, ← append_assoc] at heq
      exact h before e' after (append_inj' heq rfl).1

@[simp] theorem completed_added : completed (log ++ [.added x]) = completed log := by
  simp [completed]

@[simp] theorem completed_cancelled {callback : Nat} {place : Option Nat} :
    completed (log ++ [.cancelled callback place]) = completed log := by
  simp [completed]

@[simp] theorem completed_iterated {now : Nat} {l : List Scheduled} :
    completed (log ++ [.iterated now l]) = completed log ++ l := by
  simp [completed]

structure Delivered (log : List TimerEvent) : Prop where
  /-- No place is used twice. -/
  places : ∀ x y, .added x ∈ log → .added y ∈ log → x.place = y.place → x = y
  /-- Only what was added is completed, and not before its deadline. -/
  due : ∀ now l, .iterated now l ∈ log → ∀ x ∈ l, .added x ∈ log ∧ x.time ≤ now
  once : (completed log).Nodup
  /-- Only what was added is cancelled. -/
  added : ∀ callback place, .cancelled callback (some place) ∈ log →
    ∃ x, .added x ∈ log ∧ x.callback = callback ∧ x.place = place
  exclusive : ∀ x, .cancelled x.callback (some x.place) ∈ log → x ∉ completed log

theorem mem_completed : x ∈ completed log ↔ ∃ now l, .iterated now l ∈ log ∧ x ∈ l := by
  unfold completed
  rw [mem_flatMap]
  constructor
  · rintro ⟨e, he, hx⟩
    cases e with
    | iterated now l => exact ⟨now, l, he, hx⟩
    | added _ | cancelled _ _ => cases hx
  · rintro ⟨now, l, he, hx⟩
    exact ⟨_, he, hx⟩

theorem Delivered.added_of_completed (h : Delivered log) (hx : x ∈ completed log) :
    .added x ∈ log := by
  obtain ⟨now, l, he, hx⟩ := mem_completed.mp hx
  exact (h.due now l he x hx).1

/-- **A log whose entries all fit delivers.** -/
theorem Lawful.delivered (h : Lawful log) : Delivered log := by
  induction log using List.reverseRecOn with
  | nil =>
    refine ⟨?_, ?_, nodup_nil, ?_, ?_⟩
    · intro x y hx
      cases hx
    · intro now l hl
      cases hl
    · intro callback place hc
      cases hc
    · intro x hx
      cases hx
  | append_singleton log e ih =>
    obtain ⟨hlog, hfits⟩ := lawful_snoc.mp h
    have hd := ih hlog
    cases e with
    | added z =>
      have hnew : ∀ x, .added x ∈ log ++ [TimerEvent.added z] ↔ .added x ∈ log ∨ x = z := by
        intro x
        simp
      refine ⟨?_, ?_, ?_, ?_, ?_⟩
      · intro x y hx hy hplace
        rcases (hnew x).mp hx with hx' | hx'
        · rcases (hnew y).mp hy with hy' | rfl
          · exact hd.places x y hx' hy' hplace
          · exact absurd hplace (hfits x hx')
        · subst hx'
          rcases (hnew y).mp hy with hy' | rfl
          · exact absurd hplace.symm (hfits y hy')
          · rfl
      · intro now l hl x hx
        have hl : .iterated now l ∈ log := by simpa using hl
        obtain ⟨hadd, htime⟩ := hd.due now l hl x hx
        exact ⟨(hnew x).mpr (Or.inl hadd), htime⟩
      · rw [completed_added]
        exact hd.once
      · intro callback place hc
        have hc : .cancelled callback (some place) ∈ log := by simpa using hc
        obtain ⟨x, hx, hrest⟩ := hd.added callback place hc
        exact ⟨x, (hnew x).mpr (Or.inl hx), hrest⟩
      · intro x hc
        have hc : .cancelled x.callback (some x.place) ∈ log := by simpa using hc
        rw [completed_added]
        exact hd.exclusive x hc
    | cancelled callback place =>
      have hadded : ∀ x, .added x ∈ log ++ [TimerEvent.cancelled callback place] ↔
          .added x ∈ log := by
        intro x
        simp
      refine ⟨?_, ?_, ?_, ?_, ?_⟩
      · intro x y hx hy
        exact hd.places x y ((hadded x).mp hx) ((hadded y).mp hy)
      · intro now l hl x hx
        have hl : .iterated now l ∈ log := by simpa using hl
        obtain ⟨hadd, htime⟩ := hd.due now l hl x hx
        exact ⟨(hadded x).mpr hadd, htime⟩
      · rw [completed_cancelled]
        exact hd.once
      · intro callback' place' hc
        rcases mem_append.mp hc with hc | hc
        · obtain ⟨x, hx, hrest⟩ := hd.added callback' place' hc
          exact ⟨x, (hadded x).mpr hx, hrest⟩
        · obtain ⟨rfl, rfl⟩ := TimerEvent.cancelled.inj (mem_singleton.mp hc)
          obtain ⟨x, hx, hrest⟩ := hfits
          exact ⟨x, (hadded x).mpr hx.added, hrest⟩
      · intro x hc
        rw [completed_cancelled]
        rcases mem_append.mp hc with hc | hc
        · exact hd.exclusive x hc
        · -- what is taken off now is outstanding, and nothing else has its place
          obtain ⟨rfl, rfl⟩ := TimerEvent.cancelled.inj (mem_singleton.mp hc)
          obtain ⟨y, hy, -, hplace⟩ := hfits
          intro hx
          have hxy := hd.places y x hy.added (hd.added_of_completed hx) hplace
          exact hy.notCompleted (hxy ▸ hx)
    | iterated now l =>
      obtain ⟨hnodup, hmem⟩ := hfits
      have hadded : ∀ x, .added x ∈ log ++ [TimerEvent.iterated now l] ↔ .added x ∈ log := by
        intro x
        simp
      refine ⟨?_, ?_, ?_, ?_, ?_⟩
      · intro x y hx hy
        exact hd.places x y ((hadded x).mp hx) ((hadded y).mp hy)
      · intro now' l' hl x hx
        rw [hadded]
        rcases mem_append.mp hl with hl | hl
        · exact hd.due now' l' hl x hx
        · obtain ⟨rfl, rfl⟩ := TimerEvent.iterated.inj (mem_singleton.mp hl)
          obtain ⟨hout, htime⟩ := (hmem x).mp hx
          exact ⟨hout.added, htime⟩
      · rw [completed_iterated]
        refine nodup_append.mpr ⟨hd.once, hnodup, ?_⟩
        rintro x hx y hy rfl
        exact ((hmem x).mp hy).1.notCompleted hx
      · intro callback place hc
        have hc : .cancelled callback (some place) ∈ log := by simpa using hc
        obtain ⟨x, hx, hrest⟩ := hd.added callback place hc
        exact ⟨x, (hadded x).mpr hx, hrest⟩
      · intro x hc hx
        have hc : .cancelled x.callback (some x.place) ∈ log := by simpa using hc
        rw [completed_iterated] at hx
        rcases mem_append.mp hx with hx | hx
        · exact hd.exclusive x hc hx
        · exact ((hmem x).mp hx).1.notCancelled hc

/-! ### What is outstanding after one more entry -/

theorem outstanding_added (h : Delivered log) (hfits : Fits log (.added x)) :
    Outstanding (log ++ [.added x]) y ↔ Outstanding log y ∨ y = x := by
  constructor
  · rintro ⟨hadd, hcan, hcom⟩
    rw [completed_added] at hcom
    rcases mem_append.mp hadd with hadd | hadd
    · exact Or.inl ⟨hadd, fun hc => hcan (mem_append_left _ hc), hcom⟩
    · exact Or.inr (TimerEvent.added.inj (mem_singleton.mp hadd))
  · rintro (hy | rfl)
    · refine ⟨mem_append_left _ hy.added, ?_, by rw [completed_added]; exact hy.notCompleted⟩
      intro hc
      exact hy.notCancelled (by simpa using hc)
    · -- its place is new
      refine ⟨by simp, ?_, ?_⟩
      · intro hc
        have hc : .cancelled y.callback (some y.place) ∈ log := by simpa using hc
        obtain ⟨z, hz, -, hplace⟩ := h.added _ _ hc
        exact hfits z hz hplace
      · rw [completed_added]
        intro hc
        exact hfits y (h.added_of_completed hc) rfl

theorem outstanding_refused {callback : Nat} :
    Outstanding (log ++ [.cancelled callback none]) y ↔ Outstanding log y := by
  constructor
  · rintro ⟨hadd, hcan, hcom⟩
    exact ⟨by simpa using hadd, fun hc => hcan (mem_append_left _ hc),
      by rwa [completed_cancelled] at hcom⟩
  · intro hy
    refine ⟨mem_append_left _ hy.added, ?_, by rw [completed_cancelled]; exact hy.notCompleted⟩
    intro hc
    exact hy.notCancelled (by simpa using hc)

theorem outstanding_cancelled (h : Delivered log) (hx : Outstanding log x) :
    Outstanding (log ++ [.cancelled x.callback (some x.place)]) y ↔ Outstanding log y ∧ y ≠ x := by
  constructor
  · rintro ⟨hadd, hcan, hcom⟩
    refine ⟨⟨by simpa using hadd, fun hc => hcan (mem_append_left _ hc),
      by rwa [completed_cancelled] at hcom⟩, ?_⟩
    rintro rfl
    exact hcan (by simp)
  · rintro ⟨hy, hne⟩
    refine ⟨mem_append_left _ hy.added, ?_, by rw [completed_cancelled]; exact hy.notCompleted⟩
    intro hc
    rcases mem_append.mp hc with hc | hc
    · exact hy.notCancelled hc
    · obtain ⟨-, hplace⟩ := TimerEvent.cancelled.inj (mem_singleton.mp hc)
      exact hne (h.places y x hy.added hx.added (Option.some.inj hplace))

theorem outstanding_iterated {now : Nat} {l : List Scheduled} :
    Outstanding (log ++ [.iterated now l]) y ↔ Outstanding log y ∧ y ∉ l := by
  constructor
  · rintro ⟨hadd, hcan, hcom⟩
    rw [completed_iterated, mem_append, not_or] at hcom
    exact ⟨⟨by simpa using hadd, fun hc => hcan (mem_append_left _ hc), hcom.1⟩, hcom.2⟩
  · rintro ⟨hy, hnot⟩
    refine ⟨mem_append_left _ hy.added, ?_, ?_⟩
    · intro hc
      exact hy.notCancelled (by simpa using hc)
    · rw [completed_iterated, mem_append, not_or]
      exact ⟨hy.notCompleted, hnot⟩

/-! ## The maps -/

structure Matched (schedule : List Scheduled) (events : Nat → Option Nat) : Prop where
  places : (schedule.map Scheduled.place).Nodup
  lookup : ∀ callback place, events callback = some place ↔
    ∃ x ∈ schedule, x.callback = callback ∧ x.place = place

variable {schedule : List Scheduled} {events : Nat → Option Nat} {now : Nat}

theorem Matched.eq_of_place (h : Matched schedule events) (hx : x ∈ schedule) (hy : y ∈ schedule)
    (hplace : x.place = y.place) : x = y :=
  inj_on_of_nodup_map h.places hx hy hplace

theorem Matched.find (h : Matched schedule events) (hx : x ∈ schedule) :
    events x.callback = some x.place :=
  (h.lookup _ _).mpr ⟨x, hx, rfl, rfl⟩

theorem Matched.eq_of_callback (h : Matched schedule events) (hx : x ∈ schedule) (hy : y ∈ schedule)
    (hcallback : x.callback = y.callback) : x = y := by
  have hfind := h.find hx
  rw [hcallback, h.find hy] at hfind
  exact (h.eq_of_place hy hx (Option.some.inj hfind)).symm

theorem Matched.erase (h : Matched schedule events) (hx : x ∈ schedule) :
    Matched (schedule.filter fun y => y.place ≠ x.place) (update events x.callback none)
      ∧ ∀ y, y ∈ (schedule.filter fun y => y.place ≠ x.place) ↔ y ∈ schedule ∧ y ≠ x := by
  have hmem : ∀ y, y ∈ (schedule.filter fun y => y.place ≠ x.place) ↔ y ∈ schedule ∧ y ≠ x := by
    intro y
    rw [mem_filter, decide_eq_true_eq]
    refine and_congr_right fun hy => not_congr ⟨fun hplace => h.eq_of_place hy hx hplace, ?_⟩
    rintro rfl
    rfl
  refine ⟨⟨h.places.sublist (filter_sublist.map _), fun callback place => ?_⟩, hmem⟩
  by_cases hcb : callback = x.callback
  · subst hcb
    rw [update_self]
    refine ⟨nofun, ?_⟩
    -- nothing else has the callback
    rintro ⟨y, hy, hcallback, -⟩
    obtain ⟨hy, hne⟩ := (hmem y).mp hy
    exact absurd (h.eq_of_callback hy hx hcallback) hne
  · rw [update_of_ne hcb, h.lookup]
    constructor
    · rintro ⟨y, hy, rfl, hplace⟩
      exact ⟨y, (hmem y).mpr ⟨hy, fun hyx => hcb (by rw [hyx])⟩, rfl, hplace⟩
    · rintro ⟨y, hy, hrest⟩
      exact ⟨y, ((hmem y).mp hy).1, hrest⟩

theorem mem_insertScheduled : y ∈ insertScheduled x schedule ↔ y = x ∨ y ∈ schedule :=
  mem_orderedInsert _

theorem Matched.insert (h : Matched schedule events) (hplace : ∀ y ∈ schedule, y.place ≠ x.place)
    (hcb : ∀ y ∈ schedule, y.callback ≠ x.callback) :
    Matched (insertScheduled x schedule) (update events x.callback (some x.place)) := by
  refine ⟨?_, fun callback place => ?_⟩
  · have hperm : ((insertScheduled x schedule).map Scheduled.place).Perm
        ((x :: schedule).map Scheduled.place) := (perm_orderedInsert _ _ _).map _
    rw [hperm.nodup_iff, map_cons, nodup_cons]
    refine ⟨fun hmem => ?_, h.places⟩
    obtain ⟨y, hy, heq⟩ := mem_map.mp hmem
    exact hplace y hy heq
  · by_cases heq : callback = x.callback
    · subst heq
      rw [update_self]
      constructor
      · intro hplace'
        exact ⟨x, mem_insertScheduled.mpr (Or.inl rfl), rfl, Option.some.inj hplace'⟩
      · rintro ⟨y, hy, hcallback, rfl⟩
        rcases mem_insertScheduled.mp hy with rfl | hy
        · rfl
        · exact absurd hcallback (hcb y hy)
    · rw [update_of_ne heq, h.lookup]
      constructor
      · rintro ⟨y, hy, hrest⟩
        exact ⟨y, mem_insertScheduled.mpr (Or.inr hy), hrest⟩
      · rintro ⟨y, hy, rfl, hplace'⟩
        rcases mem_insertScheduled.mp hy with rfl | hy
        · exact absurd rfl heq
        · exact ⟨y, hy, rfl, hplace'⟩

def Ascending (schedule : List Scheduled) : Prop :=
  schedule.Pairwise fun x y => x.time ≤ y.time

theorem Ascending.insert (h : Ascending schedule) : Ascending (insertScheduled x schedule) := by
  unfold insertScheduled
  induction schedule with
  | nil => exact pairwise_singleton _ _
  | cons y l ih =>
    obtain ⟨hy, hl⟩ := pairwise_cons.mp h
    rw [orderedInsert_cons]
    split
    · rename_i hlt
      refine pairwise_cons.mpr ⟨?_, h⟩
      rw [forall_mem_cons]
      exact ⟨Nat.le_of_lt hlt, fun z hz => Nat.le_trans (Nat.le_of_lt hlt) (hy z hz)⟩
    · rename_i hge
      refine pairwise_cons.mpr ⟨fun z hz => ?_, ih hl⟩
      rcases mem_insertScheduled.mp hz with rfl | hz
      · exact Nat.le_of_not_lt hge
      · exact hy z hz

/-! ### The loop of an iteration -/

structure Expired (schedule : List Scheduled) (now : Nat) (done : List Scheduled) (m : Expiry) :
    Prop where
  matched : Matched m.schedule m.events
  eventList : m.eventList = done.filter fun x => x.time ≤ now
  schedule : m.schedule = schedule.filter fun x => ¬ (x ∈ done ∧ x.time ≤ now)

theorem Expired.round {done : List Scheduled} {m : Expiry} (hplaces : Matched schedule events)
    (h : Expired schedule now done m) (hx : x ∈ schedule) (hnot : x ∉ done) :
    Expired schedule now (done ++ [x]) (expire now m x) := by
  unfold expire
  by_cases hdue : x.time ≤ now
  · have hmem : x ∈ m.schedule := by
      rw [h.schedule, mem_filter, decide_eq_true_eq]
      exact ⟨hx, fun hd => hnot hd.1⟩
    rw [if_pos hdue, h.matched.find hmem]
    refine ⟨(h.matched.erase hmem).1, ?_, ?_⟩
    · simp [h.eventList, hdue]
    · simp only [h.schedule, filter_filter]
      refine filter_congr fun y hy => ?_
      have heq : y.place = x.place ↔ y = x :=
        ⟨fun hp => hplaces.eq_of_place hy hx hp, fun h => by rw [h]⟩
      rw [← Bool.decide_and, decide_eq_decide, mem_append, mem_singleton, ne_eq, heq]
      constructor
      · rintro ⟨hne, hdone⟩ ⟨hy' | hy', htime⟩
        · exact hdone ⟨hy', htime⟩
        · exact hne hy'
      · intro hall
        refine ⟨?_, fun hd => hall ⟨Or.inl hd.1, hd.2⟩⟩
        rintro rfl
        exact hall ⟨Or.inr rfl, hdue⟩
  · rw [if_neg hdue]
    refine ⟨h.matched, ?_, ?_⟩
    · simp [h.eventList, hdue]
    · rw [h.schedule]
      refine filter_congr fun y _ => ?_
      rw [decide_eq_decide, mem_append, mem_singleton]
      refine not_congr ⟨fun hd => ⟨Or.inl hd.1, hd.2⟩, ?_⟩
      rintro ⟨hy | rfl, htime⟩
      · exact ⟨hy, htime⟩
      · exact absurd htime hdue

/-- **The loop**: what is due leaves both maps and is listed, and the rest stays. -/
theorem expire_foldl (now : Nat) (h : Matched schedule events) :
    Matched (schedule.foldl (expire now) ⟨schedule, events, []⟩).schedule
        (schedule.foldl (expire now) ⟨schedule, events, []⟩).events
      ∧ (schedule.foldl (expire now) ⟨schedule, events, []⟩).schedule
          = schedule.filter (fun x => now < x.time)
      ∧ (schedule.foldl (expire now) ⟨schedule, events, []⟩).eventList
          = schedule.filter (fun x => x.time ≤ now) := by
  have hnodup : schedule.Nodup := List.Nodup.of_map _ h.places
  have hloop := foldl_invariant (f := expire now) (s := ⟨schedule, events, []⟩)
    (I := fun done m => done <+: schedule → Expired schedule now done m)
    (fun _ => ⟨h, rfl, by simp⟩)
    (fun done x m ih hprefix => by
      have hx : x ∈ schedule := hprefix.subset (by simp)
      have hnot : x ∉ done := by
        have hd := hnodup.sublist hprefix.sublist
        exact fun hmem => (nodup_append.mp hd).2.2 x hmem x (by simp) rfl
      exact (ih ((prefix_append done [x]).trans hprefix)).round h hx hnot)
    schedule (prefix_refl _)
  refine ⟨hloop.matched, ?_, hloop.eventList⟩
  rw [hloop.schedule]
  refine filter_congr fun x hx => ?_
  rw [decide_eq_decide]
  exact ⟨fun hn => Nat.lt_of_not_le fun hle => hn ⟨hx, hle⟩,
    fun hlt hd => Nat.not_lt_of_le hd.2 hlt⟩

/-! ## Every run -/

variable {s s' : SafeTimer}

/-- Callbacks are added while they are not scheduled, with deadlines that fit an `int64_t`. -/
def AddsFresh (s : SafeTimer) : Act → Prop
  | .addEventAfter now delta callback =>
    (∀ x ∈ s.schedule, x.callback ≠ callback) ∧ now + delta < 2 ^ 63
  | _ => True

instance (s : SafeTimer) : ∀ a, Decidable (AddsFresh s a)
  | .addEventAfter _ _ _ => inferInstanceAs (Decidable (_ ∧ _))
  | .tick _ | .cancelEvent _ | .readClock | .iterate | .wait | .wakeUp | .goOn =>
    inferInstanceAs (Decidable True)

structure TimerInv (s : SafeTimer) : Prop where
  matched : Matched s.schedule s.events
  ascending : Ascending s.schedule
  small : ∀ x ∈ s.schedule, x.time < 2 ^ 63
  places : ∀ x, .added x ∈ s.log → x.place < s.places
  lawful : Lawful s.log
  scheduled : ∀ x, x ∈ s.schedule ↔ Outstanding s.log x
  asserted : s.asserted = false

theorem timerInv_new (clock : Nat) : TimerInv (new clock) where
  matched := ⟨nodup_nil, fun _ _ => by simp [new]⟩
  ascending := List.Pairwise.nil
  small := fun x hx => absurd hx (by simp [new])
  places := fun x hx => absurd hx (by simp [new])
  lawful := lawful_nil
  scheduled := fun x => by
    refine ⟨fun hx => absurd hx (by simp [new]), fun hx => absurd hx.added (by simp [new])⟩
  asserted := rfl

theorem TimerInv.add (h : TimerInv s) {time callback : Nat}
    (hcb : ∀ x ∈ s.schedule, x.callback ≠ callback) (htime : time < 2 ^ 63) :
    TimerInv (s.addEventAt time callback) := by
  have hnone : s.events callback = none := by
    rw [Option.eq_none_iff_forall_not_mem]
    intro place hplace
    obtain ⟨x, hx, hx', -⟩ := (h.matched.lookup _ _).mp hplace
    exact hcb x hx hx'
  have hold : ∀ y, .added y ∈ s.log → y.place ≠ s.places :=
    fun y hy => Nat.ne_of_lt (h.places y hy)
  have hfits : Fits s.log (.added ⟨s.places, time, callback⟩) := hold
  unfold addEventAt
  rw [hnone]
  refine ⟨h.matched.insert ?_ hcb, h.ascending.insert, ?_, ?_,
    lawful_snoc.mpr ⟨h.lawful, hfits⟩, ?_, h.asserted⟩
  · intro y hy
    exact hold y ((h.scheduled y).mp hy).added
  · intro x hx
    rcases mem_insertScheduled.mp hx with rfl | hx
    · exact htime
    · exact h.small x hx
  · intro x hx
    rcases mem_append.mp hx with hx | hx
    · exact Nat.lt_succ_of_lt (h.places x hx)
    · rw [TimerEvent.added.inj (mem_singleton.mp hx)]
      exact Nat.lt_succ_self _
  · intro x
    show x ∈ insertScheduled _ _ ↔ Outstanding (s.log ++ _) x
    rw [mem_insertScheduled, outstanding_added h.lawful.delivered hfits, h.scheduled, or_comm]

theorem TimerInv.cancel (h : TimerInv s) (callback : Nat) : TimerInv (s.cancelEvent callback) := by
  unfold SafeTimer.cancelEvent
  cases hfind : s.events callback with
  | none =>
    have hfits : Fits s.log (.cancelled callback none) := by
      rintro x hx rfl
      have := h.matched.find ((h.scheduled x).mpr hx)
      rw [hfind] at this
      cases this
    refine ⟨h.matched, h.ascending, h.small, ?_, lawful_snoc.mpr ⟨h.lawful, hfits⟩, ?_, h.asserted⟩
    · intro x hx
      exact h.places x (by simpa using hx)
    · intro x
      rw [outstanding_refused]
      exact h.scheduled x
  | some place =>
    obtain ⟨x, hx, rfl, rfl⟩ := (h.matched.lookup _ _).mp hfind
    obtain ⟨hmatched, hmem⟩ := h.matched.erase hx
    have hout := (h.scheduled x).mp hx
    refine ⟨hmatched, h.ascending.sublist filter_sublist, ?_, ?_,
      lawful_snoc.mpr ⟨h.lawful, x, hout, rfl, rfl⟩, ?_, h.asserted⟩
    · intro y hy
      exact h.small y ((hmem y).mp hy).1
    · intro y hy
      exact h.places y (by simpa using hy)
    · intro y
      rw [outstanding_cancelled h.lawful.delivered hout, ← h.scheduled]
      exact hmem y

theorem waitPeriod_eq {first now : Nat} (hlt : now < first) (hsmall : first < 2 ^ 63) :
    waitPeriod first now = (first : Int) - now := by
  unfold waitPeriod
  exact Int.bmod_eq_of_le (by omega) (by omega)

theorem TimerInv.iterate (h : TimerInv s) (now : Nat) : TimerInv (s.iterate now) := by
  obtain ⟨hmatched, hschedule, hlist⟩ := expire_foldl now h.matched
  have hfits : Fits s.log (.iterated now (s.schedule.filter fun x => x.time ≤ now)) := by
    refine ⟨(List.Nodup.of_map _ h.matched.places).filter _, fun x => ?_⟩
    rw [mem_filter, decide_eq_true_eq, h.scheduled]
  have hscheduled : ∀ x, x ∈ (s.schedule.filter fun x => now < x.time) ↔
      Outstanding (s.log ++ [.iterated now (s.schedule.filter fun x => x.time ≤ now)]) x := by
    intro x
    rw [outstanding_iterated, ← h.scheduled, mem_filter, mem_filter, decide_eq_true_eq,
      decide_eq_true_eq]
    refine and_congr_right fun hx => ⟨fun hlt hd => Nat.not_lt_of_le hd.2 hlt, fun hn => ?_⟩
    exact Nat.lt_of_not_le fun hle => hn ⟨hx, hle⟩
  have hplaces : ∀ x,
      .added x ∈ s.log ++ [.iterated now (s.schedule.filter fun x => x.time ≤ now)] →
      x.place < s.places := fun x hx => h.places x (by simpa using hx)
  have hsmall : ∀ x ∈ (s.schedule.filter fun x => now < x.time), x.time < 2 ^ 63 :=
    fun x hx => h.small x (mem_filter.mp hx).1
  rw [hschedule] at hmatched
  unfold SafeTimer.iterate
  dsimp only
  rw [hschedule, hlist]
  have hasc : Ascending (s.schedule.filter fun x => now < x.time) :=
    h.ascending.sublist filter_sublist
  split
  · exact ⟨hmatched, hasc, hsmall, hplaces, lawful_snoc.mpr ⟨h.lawful, hfits⟩, hscheduled,
      h.asserted⟩
  · rename_i x l hcons
    -- what is left lies ahead, so the assertion holds
    have hx : x ∈ (s.schedule.filter fun x => now < x.time) := by
      rw [hcons]
      exact mem_cons_self
    have hlt : now < x.time := of_decide_eq_true (mem_filter.mp hx).2
    have hpos : 0 < waitPeriod x.time now := by
      rw [waitPeriod_eq hlt (hsmall x hx)]
      omega
    rw [if_pos hpos]
    exact ⟨hmatched, hasc, hsmall, hplaces, lawful_snoc.mpr ⟨h.lawful, hfits⟩, hscheduled,
      h.asserted⟩

theorem timerInv_step {a : Act} (h : TimerInv s) (hok : AddsFresh s a) (hs : s.step a = some s') :
    TimerInv s' := by
  cases step_cases hs with
  | @add now delta callback _ =>
    obtain ⟨hcb, hsmall⟩ := hok
    rw [Nat.mod_eq_of_lt (by omega)]
    exact h.add hcb hsmall
  | @cancel callback => exact h.cancel callback
  | @iterate now _ => exact h.iterate now
  -- the others leave the maps and the log alone
  | tick | read | wait | wakeUp | goOn =>
    exact ⟨h.matched, h.ascending, h.small, h.places, h.lawful, h.scheduled, h.asserted⟩

theorem timerInv_reachable {clock : Nat}
    (h : Reachable step AddsFresh (new clock) s) : TimerInv s :=
  Reachable.invariant (timerInv_new clock) (fun _ _ _ hinv hok hs => timerInv_step hinv hok hs) h

/-- What a timer promises, of its maps and of its log. -/
structure TimerLaws (s : SafeTimer) : Prop where
  /-- Every scheduled pair has one entry that points at it, and every entry points at one. -/
  matched : (s.schedule.map Scheduled.place).Nodup ∧ ∀ callback place,
    s.events callback = some place ↔ ∃ x ∈ s.schedule, x.callback = callback ∧ x.place = place
  /-- What is scheduled has been added, and neither been cancelled nor completed. -/
  scheduled : ∀ x, x ∈ s.schedule ↔ Outstanding s.log x
  once : (completed s.log).Nodup
  notEarly : ∀ now l, .iterated now l ∈ s.log → ∀ x ∈ l, .added x ∈ s.log ∧ x.time ≤ now
  notAfterCancel : ∀ x, .cancelled x.callback (some x.place) ∈ s.log → x ∉ completed s.log
  /-- `cancel_event` returns false if and only if nothing is outstanding for the callback. -/
  refused : ∀ before callback place after, s.log = before ++ .cancelled callback place :: after →
    (place = none ↔ ∀ x, .added x ∈ before → x.callback = callback →
      .cancelled x.callback (some x.place) ∈ before ∨ x ∈ completed before)
  /-- An iteration completes everything that is due when it starts. -/
  due : ∀ before now l after, s.log = before ++ .iterated now l :: after →
    ∀ x, Outstanding before x → x.time ≤ now → x ∈ l
  asserted : s.asserted = false

/--
**The timer delivers**: in every run, whatever the order in which events are added and
cancelled and the thread iterates.
-/
theorem timer_delivers {clock : Nat} (h : Reachable step AddsFresh (new clock) s) :
    TimerLaws s := by
  have hinv := timerInv_reachable h
  have hd := hinv.lawful.delivered
  refine ⟨⟨hinv.matched.places, hinv.matched.lookup⟩, hinv.scheduled, hd.once, hd.due, hd.exclusive,
    ?_, ?_, hinv.asserted⟩
  · intro before callback place after heq
    have hfits := hinv.lawful before _ after heq
    cases place with
    | none =>
      refine ⟨fun _ x hadd hcb => ?_, fun _ => rfl⟩
      by_contra hno
      rw [not_or] at hno
      exact hfits x ⟨hadd, hno.1, hno.2⟩ hcb
    | some place =>
      obtain ⟨x, hx, hcb, -⟩ := hfits
      refine ⟨nofun, fun hall => ?_⟩
      rcases hall x hx.added hcb with hc | hc
      · exact absurd hc hx.notCancelled
      · exact absurd hc hx.notCompleted
  · intro before now l after heq x hx htime
    exact ((hinv.lawful before _ after heq).2 x).mpr ⟨hx, htime⟩

/-- Two events with one deadline; one of them is cancelled, and the other one completed. -/
theorem timer_delivers_one : ∃ s, Reachable step AddsFresh (new 100) s
    ∧ s.log = [.added ⟨0, 150, 7⟩, .added ⟨1, 150, 8⟩, .cancelled 7 (some 0),
        .iterated 150 [⟨1, 150, 8⟩], .cancelled 8 none] ∧ TimerLaws s := by
  have hrun : (run step AddsFresh (new 100)
      [.addEventAfter 100 50 7, .addEventAfter 90 60 8, .cancelEvent 7, .tick 150, .readClock,
        .iterate, .cancelEvent 8]).map
      (fun s => decide (s.log = [.added ⟨0, 150, 7⟩, .added ⟨1, 150, 8⟩, .cancelled 7 (some 0),
        .iterated 150 [⟨1, 150, 8⟩], .cancelled 8 none])) = some true := by decide +kernel
  obtain ⟨s, hs, htest⟩ := Reachable.of_run_decide hrun
  exact ⟨s, hs, htest, timer_delivers hs⟩

end HDCS.Proof
