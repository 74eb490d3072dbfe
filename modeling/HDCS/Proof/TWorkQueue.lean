import Mathlib.Data.List.Nodup
import HDCS.Core.TWorkQueue
import HDCS.Lib.Counting
import HDCS.Lib.Fairness

/-!
# No accepted task is lost

The tasks that were taken off the queue and those still in it are, in this order, the tasks
that were accepted, whatever the threads, the callers of `add_task` and the destructor do
in between. A thread returns only after it has seen `stop` with nothing in the queue, and
nothing comes into the queue after that.

That a task in the queue is taken at all rests on the notifications. A thread goes to sleep
only if the queue is empty, and whoever fills it notifies afterwards: as long as a task is
there, a thread is awake or somebody is about to notify. So the tasks before it get fewer.
-/

namespace HDCS.Proof

open Lib Lib.Machine TWorkQueue List

variable {s s' : TWorkQueue} {a : Act} {thdCnt : Nat}

/-! ## What every run keeps -/

def IsAwake : Thread → Prop
  | .ready | .holding _ | .running _ => True
  | .waiting | .returned => False

instance : DecidablePred IsAwake
  | .ready | .holding _ | .running _ => inferInstanceAs (Decidable True)
  | .waiting | .returned => inferInstanceAs (Decidable False)

structure PoolSound (thdCnt : Nat) (s : TWorkQueue) : Prop where
  length_threads : s.threads.length = thdCnt
  /-- Tasks are taken in the order they were accepted in. -/
  order : s.taken ++ s.jobQueue = List.range s.accepted
  /-- A task that was taken was called, or the thread that has it will call it. -/
  hands : ∀ task, s.called.count task + s.threads.count (.holding task) = s.taken.count task
  /-- Nothing is left behind. -/
  left : .returned ∈ s.threads → s.stop = true ∧ s.jobQueue = []
  /-- Somebody looks after the queue. -/
  attended : s.jobQueue ≠ [] → 0 < s.notifies ∨ s.notifiesAll = true ∨ ∃ v ∈ s.threads, IsAwake v

theorem poolSound_start (thdCnt : Nat) : PoolSound thdCnt (start thdCnt) where
  length_threads := length_replicate
  order := rfl
  hands := by
    intro task
    show 0 + (List.replicate thdCnt Thread.ready).count (.holding task) = 0
    rw [Nat.zero_add, List.count_eq_zero]
    intro hmem
    exact Thread.noConfusion (eq_of_mem_replicate hmem)
  left := fun hmem => Thread.noConfusion (eq_of_mem_replicate hmem)
  attended := fun h => absurd rfl h

theorem length_threads_step (hs : Stepped s a s') : s'.threads.length = s.threads.length := by
  cases hs with
  | accept _ | throw _ | notifyNobody _ _ | setStop _ => rfl
  | notifyAll _ => exact length_map ..
  | notify _ _ | wait _ _ _ | leave _ _ _ | take _ _ | call _ | finish _ | wakeUp _ =>
    exact length_set ..

theorem order_step (hs : Stepped s a s') (h : s.taken ++ s.jobQueue = List.range s.accepted) :
    s'.taken ++ s'.jobQueue = List.range s'.accepted := by
  cases hs with
  | accept _ =>
    show s.taken ++ (s.jobQueue ++ [s.accepted]) = List.range (s.accepted + 1)
    rw [← append_assoc, h, range_succ]
  | @take w task rest _ hqueue =>
    show s.taken ++ [task] ++ rest = List.range s.accepted
    rw [append_assoc, ← h, hqueue]
    rfl
  | throw _ | notify _ _ | notifyNobody _ _ | setStop _ | notifyAll _ | wait _ _ _ | leave _ _ _
  | call _ | finish _ | wakeUp _ => exact h

theorem count_map_wake (task : Nat) (l : List Thread) :
    (l.map Thread.wake).count (.holding task) = l.count (.holding task) := by
  rw [List.count, countP_map]
  refine countP_congr fun v _ => ?_
  cases v <;> simp [Thread.wake]

theorem count_set_of_ne {l : List Thread} {w task : Nat} {v v' : Thread} (hw : l[w]? = some v)
    (hv : v ≠ .holding task) (hv' : v' ≠ .holding task) :
    (l.set w v').count (.holding task) = l.count (.holding task) := by
  have hset := count_set_add (.holding task) v' hw
  rwa [if_neg hv, if_neg hv'] at hset

theorem hands_step (hs : Stepped s a s')
    (h : ∀ task, s.called.count task + s.threads.count (.holding task) = s.taken.count task)
    (task : Nat) :
    s'.called.count task + s'.threads.count (.holding task) = s'.taken.count task := by
  have htask := h task
  cases hs with
  | accept _ | throw _ | notifyNobody _ _ | setStop _ => exact htask
  | notifyAll _ =>
    show _ + (s.threads.map Thread.wake).count _ = _
    rw [count_map_wake]
    exact htask
  | notify _ hw | wait hw _ _ | leave hw _ _ | finish hw | wakeUp hw =>
    show s.called.count task + (s.threads.set _ _).count _ = s.taken.count task
    rw [← htask, count_set_of_ne hw (by simp) (by simp)]
  | @take w task' rest hw _ =>
    have hset := count_set_add (.holding task) (.holding task') hw
    show s.called.count task + (s.threads.set w _).count _ = (s.taken ++ [task']).count task
    rw [if_neg (by simp)] at hset
    rw [count_append, count_singleton, ← htask]
    simp only [Thread.holding.injEq, beq_iff_eq] at hset ⊢
    omega
  | @call w task' hw =>
    have hset := count_set_add (.holding task) (.running task') hw
    show (s.called ++ [task']).count task + (s.threads.set w _).count _ = s.taken.count task
    rw [if_neg (by simp : ¬ Thread.running task' = .holding task)] at hset
    rw [count_append, count_singleton, ← htask]
    simp only [Thread.holding.injEq, beq_iff_eq] at hset ⊢
    omega

theorem left_step (hs : Stepped s a s')
    (h : .returned ∈ s.threads → s.stop = true ∧ s.jobQueue = []) :
    .returned ∈ s'.threads → s'.stop = true ∧ s'.jobQueue = [] := by
  -- a thread that is put somewhere else than to its end
  have hset : ∀ {w : Nat} {v : Thread}, v ≠ .returned → .returned ∈ s.threads.set w v →
      s.stop = true ∧ s.jobQueue = [] := by
    intro w v hv hmem
    rcases mem_or_eq_of_mem_set hmem with hold | hnew
    · exact h hold
    · exact absurd hnew.symm hv
  intro hmem
  cases hs with
  | accept hstop =>
    rw [(h hmem).1] at hstop
    cases hstop
  | throw _ | notifyNobody _ _ => exact h hmem
  | setStop hstop => exact ⟨rfl, (h hmem).2⟩
  | notifyAll _ =>
    obtain ⟨v, hv, hwake⟩ := mem_map.mp hmem
    cases v with
    | returned => exact h hv
    | ready | waiting | holding _ | running _ => exact Thread.noConfusion hwake
  | notify _ _ | wait _ _ _ | call _ | finish _ | wakeUp _ => exact hset (by simp) hmem
  | leave _ hstop hqueue => exact ⟨hstop, hqueue⟩
  | @take w task rest _ hqueue =>
    obtain ⟨-, hempty⟩ := hset (by simp) hmem
    rw [hqueue] at hempty
    cases hempty

theorem exists_awake (hthreads : s.threads ≠ [])
    (hleft : .returned ∈ s.threads → s.stop = true ∧ s.jobQueue = []) (hqueue : s.jobQueue ≠ [])
    (hwaiting : .waiting ∉ s.threads) : ∃ v ∈ s.threads, IsAwake v := by
  obtain ⟨v, hv⟩ := exists_mem_of_ne_nil _ hthreads
  refine ⟨v, hv, ?_⟩
  cases v with
  | ready | holding _ | running _ => trivial
  | waiting => exact absurd hv hwaiting
  | returned => exact absurd (hleft hv).2 hqueue

theorem attended_step (hs : Stepped s a s') (hthreads : s.threads ≠ [])
    (hleft : .returned ∈ s.threads → s.stop = true ∧ s.jobQueue = [])
    (h : s.jobQueue ≠ [] → 0 < s.notifies ∨ s.notifiesAll = true ∨ ∃ v ∈ s.threads, IsAwake v) :
    s'.jobQueue ≠ [] →
      0 < s'.notifies ∨ s'.notifiesAll = true ∨ ∃ v ∈ s'.threads, IsAwake v := by
  have hawake : ∀ {w : Nat} {v v' : Thread}, s.threads[w]? = some v → IsAwake v' →
      ∃ u ∈ s.threads.set w v', IsAwake u := by
    intro w v v' hw hv'
    exact ⟨v', mem_set (lt_of_getElem? hw) v', hv'⟩
  intro hqueue
  cases hs with
  | accept _ => exact Or.inl (Nat.succ_pos _)
  | throw _ => exact h hqueue
  | setStop _ => exact Or.inr (Or.inl rfl)
  | notifyNobody _ hnone => exact Or.inr (Or.inr (exists_awake hthreads hleft hqueue hnone))
  | notifyAll _ =>
    refine Or.inr (Or.inr ?_)
    obtain ⟨v, hv⟩ := exists_mem_of_ne_nil _ hthreads
    refine ⟨v.wake, mem_map_of_mem hv, ?_⟩
    cases v with
    | ready | waiting | holding _ | running _ => trivial
    | returned => exact absurd (hleft hv).2 hqueue
  | wait _ _ hempty | leave _ _ hempty => exact absurd hempty hqueue
  | notify _ hw | take hw _ | call hw | finish hw | wakeUp hw =>
    exact Or.inr (Or.inr (hawake hw trivial))

theorem PoolSound.threads_ne_nil (hpos : 1 ≤ thdCnt) (h : PoolSound thdCnt s) :
    s.threads ≠ [] := by
  rw [← length_pos_iff, h.length_threads]
  exact hpos

theorem PoolSound.step (hpos : 1 ≤ thdCnt) (h : PoolSound thdCnt s) (hs : Stepped s a s') :
    PoolSound thdCnt s' where
  length_threads := (length_threads_step hs).trans h.length_threads
  order := order_step hs h.order
  hands := hands_step hs h.hands
  left := left_step hs h.left
  attended := attended_step hs (h.threads_ne_nil hpos) h.left h.attended

theorem PoolSound.of_reachable (hpos : 1 ≤ thdCnt)
    (h : Reachable TWorkQueue.step Unrestricted (start thdCnt) s) : PoolSound thdCnt s :=
  h.invariant (poolSound_start thdCnt) fun _ _ _ hi _ hs => hi.step hpos (step_cases hs)

theorem PoolSound.taken_eq (h : PoolSound thdCnt s) : s.taken = List.range s.taken.length := by
  have htake := congrArg (List.take s.taken.length) h.order
  have hle : s.taken.length ≤ s.accepted := by
    have hlen := congrArg List.length h.order
    rw [length_append, length_range] at hlen
    omega
  rwa [take_left, take_range, Nat.min_eq_left hle] at htake

theorem PoolSound.count_taken (h : PoolSound thdCnt s) (task : Nat) :
    s.taken.count task = if task < s.taken.length then 1 else 0 := by
  rw [h.taken_eq, length_range, (nodup_range).count]
  simp only [mem_range]

theorem PoolSound.nodup_called (h : PoolSound thdCnt s) : s.called.Nodup := by
  rw [nodup_iff_count_le_one]
  intro task
  have hhands := h.hands task
  rw [h.count_taken] at hhands
  split_ifs at hhands <;> omega

theorem PoolSound.called_perm (h : PoolSound thdCnt s)
    (hdone : ∀ task, .holding task ∉ s.threads) : s.called.Perm s.taken := by
  rw [perm_iff_count]
  intro task
  rw [← h.hands task, List.count_eq_zero.mpr (hdone task), Nat.add_zero]

/-! ## Who is refused -/

theorem stop_iff_of_run {acts : List Act} (h : run step Unrestricted s acts = some s') :
    s'.stop = true ↔ s.stop = true ∨ .setStop ∈ acts := by
  induction acts generalizing s with
  | nil =>
    cases h
    simp
  | cons a acts ih =>
    rw [run_unrestricted_cons] at h
    obtain ⟨t, hstep, hrun⟩ := Option.bind_eq_some_iff.mp h
    rw [ih hrun, mem_cons]
    have hstop : t.stop = true ↔ s.stop = true ∨ .setStop = a := by
      cases step_cases hstep with
      | setStop hfalse => simp
      | accept _ | throw _ | notifyNobody _ _ | notifyAll _ | notify _ _ | wait _ _ _
      | leave _ _ _ | take _ _ | call _ | finish _ | wakeUp _ => simp [setThread]
    rw [hstop, or_assoc]

theorem addTask_eq_error_iff :
    s.addTask = .error "add_task on stopped WorkQueue" ↔ s.stop = true := by
  unfold addTask
  by_cases hstop : s.stop = true
  · rw [if_pos hstop]
    exact iff_of_true rfl hstop
  · rw [if_neg hstop]
    exact iff_of_false (by simp) hstop

/-! ## Every task gets its turn -/

/-- What a thread does when it is scheduled. -/
def OfThread (w : Nat) : Act → Prop
  | .lockedSection w' | .call w' | .finish w' => w' = w
  | .addTask | .notifyOne _ | .setStop | .notifyAll | .wakeUp _ => False

/-- What the callers of `add_task` and of the destructor have left to do. -/
def OfCaller : Act → Prop
  | .notifyOne _ | .notifyAll => True
  | .addTask | .setStop | .lockedSection _ | .call _ | .finish _ | .wakeUp _ => False

theorem enabled_ofThread_iff {w : Nat} :
    Enabled step (OfThread w) s ↔ ∃ v, s.threads[w]? = some v ∧ IsAwake v := by
  constructor
  · intro ⟨a, hgroup, henabled⟩
    obtain ⟨s', hs⟩ := Option.isSome_iff_exists.mp henabled
    cases step_cases hs with
    | wait hw _ _ | leave hw _ _ | take hw _ | call hw | finish hw =>
      obtain rfl := hgroup
      exact ⟨_, hw, trivial⟩
    | accept _ | throw _ | notifyNobody _ _ | notifyAll _ | notify _ _ | setStop _ | wakeUp _ =>
      cases hgroup
  · intro ⟨v, hw, hawake⟩
    cases v with
    | ready => exact ⟨.lockedSection w, rfl, by simp [step, hw]⟩
    | holding task => exact ⟨.call w, rfl, by simp [step, hw]⟩
    | running task => exact ⟨.finish w, rfl, by simp [step, hw]⟩
    | waiting | returned => exact hawake.elim

def roundsLeft : Thread → Nat
  | .ready | .returned => 0
  | .waiting | .running _ => 1
  | .holding _ => 2

def stepsLeft (task : Nat) (s : TWorkQueue) : Nat :=
  3 * (task + 1 - s.taken.length) + (s.threads.map roundsLeft).sum

def Queued (task : Nat) (s : TWorkQueue) : Prop := s.taken.length ≤ task ∧ task < s.accepted

def Nearer (task : Nat) (s s' : TWorkQueue) : Prop :=
  task < s'.taken.length ∨ (Queued task s' ∧ stepsLeft task s' < stepsLeft task s)

def NoNearer (task : Nat) (s s' : TWorkQueue) : Prop :=
  Queued task s' ∧ stepsLeft task s' = stepsLeft task s ∧ s'.threads = s.threads

theorem Queued.queue_ne_nil {task : Nat} (hq : Queued task s) (h : PoolSound thdCnt s) :
    s.jobQueue ≠ [] := by
  intro hempty
  have hlen := congrArg List.length h.order
  rw [hempty, append_nil, length_range] at hlen
  have := hq.1
  have := hq.2
  omega

theorem sum_map_wake_add (l : List Thread) :
    ((l.map Thread.wake).map roundsLeft).sum + l.count .waiting = (l.map roundsLeft).sum := by
  induction l with
  | nil => rfl
  | cons v l ih =>
    have hv : roundsLeft v.wake + (if v == .waiting then 1 else 0) = roundsLeft v := by
      cases v <;> rfl
    rw [map_cons, map_cons, map_cons, sum_cons, sum_cons, count_cons]
    omega

theorem stepsLeft_set {task w : Nat} {v v' : Thread} (hw : s.threads[w]? = some v)
    (hlt : roundsLeft v' < roundsLeft v) :
    stepsLeft task (s.setThread w v') < stepsLeft task s := by
  have hsum := sum_map_set_add roundsLeft v' hw
  refine Nat.add_lt_add_left ?_ (3 * (task + 1 - s.taken.length))
  show ((s.threads.set w v').map roundsLeft).sum < (s.threads.map roundsLeft).sum
  omega

theorem queued_step {task : Nat} (h : PoolSound thdCnt s) (hq : Queued task s)
    (hs : Stepped s a s') :
    Nearer task s s'
      ∨ (NoNearer task s s' ∧ (∀ w, ¬ OfThread w a) ∧ (OfCaller a → .waiting ∉ s.threads)) := by
  have hqueue := hq.queue_ne_nil h
  cases hs with
  | accept _ =>
    exact Or.inr ⟨⟨⟨hq.1, Nat.lt_succ_of_lt hq.2⟩, rfl, rfl⟩, fun _ => id, False.elim⟩
  | throw _ | setStop _ => exact Or.inr ⟨⟨hq, rfl, rfl⟩, fun _ => id, False.elim⟩
  | notifyNobody _ hnone => exact Or.inr ⟨⟨hq, rfl, rfl⟩, fun _ => id, fun _ => hnone⟩
  | notifyAll _ =>
    have hsum := sum_map_wake_add s.threads
    by_cases hwaiting : .waiting ∈ s.threads
    · refine Or.inl (Or.inr ⟨hq, ?_⟩)
      have hpos := count_pos_iff.mpr hwaiting
      refine Nat.add_lt_add_left ?_ (3 * (task + 1 - s.taken.length))
      show ((s.threads.map Thread.wake).map roundsLeft).sum < (s.threads.map roundsLeft).sum
      omega
    · refine Or.inr ⟨⟨hq, ?_, ?_⟩, fun _ => id, fun _ => hwaiting⟩
      · rw [List.count_eq_zero.mpr hwaiting] at hsum
        exact congrArg (3 * (task + 1 - s.taken.length) + ·) hsum
      · show s.threads.map Thread.wake = s.threads
        refine (map_congr_left fun v hv => ?_).trans (map_id _)
        cases v with
        | waiting => exact absurd hv hwaiting
        | ready | holding _ | running _ | returned => rfl
  | notify _ hw | wakeUp hw => exact Or.inl (Or.inr ⟨hq, stepsLeft_set hw (by decide)⟩)
  | wait _ _ hempty | leave _ _ hempty => exact absurd hempty hqueue
  | call hw | finish hw => exact Or.inl (Or.inr ⟨hq, stepsLeft_set hw (by simp [roundsLeft])⟩)
  | @take w first rest hw _ =>
    by_cases hlt : task < s.taken.length + 1
    · exact Or.inl (Or.inl (by simpa [setThread] using hlt))
    · have hsum := sum_map_set_add roundsLeft (.holding first) hw
      simp only [roundsLeft] at hsum
      refine Or.inl (Or.inr ⟨⟨?_, hq.2⟩, ?_⟩)
      · simp only [setThread, length_append, length_singleton]
        omega
      · have := hq.1
        simp only [stepsLeft, setThread, length_append, length_singleton]
        omega

theorem noNearer_step {task : Nat} {s₀ : TWorkQueue} (h : PoolSound thdCnt s)
    (hs₀ : NoNearer task s₀ s) (hs : Stepped s a s') :
    Nearer task s₀ s'
      ∨ (NoNearer task s₀ s' ∧ (∀ w, ¬ OfThread w a) ∧ (OfCaller a → .waiting ∉ s.threads)) := by
  obtain ⟨hq, hrank, hthreads⟩ := hs₀
  rcases queued_step h hq hs with (htaken | ⟨hq', hlt⟩) | ⟨⟨hq', heq, hthreads'⟩, hother⟩
  · exact Or.inl (Or.inl htaken)
  · exact Or.inl (Or.inr ⟨hq', hrank ▸ hlt⟩)
  · exact Or.inr ⟨⟨hq', heq.trans hrank, hthreads'.trans hthreads⟩, hother⟩

theorem enabled_ofCaller (h : 0 < s.notifies ∨ s.notifiesAll = true) :
    Enabled TWorkQueue.step OfCaller s := by
  rcases h with hpos | hall
  · by_cases hwaiting : .waiting ∈ s.threads
    · obtain ⟨w, hw⟩ := mem_iff_getElem?.mp hwaiting
      exact ⟨.notifyOne (some w), trivial, by simp [TWorkQueue.step, hpos, hw]⟩
    · exact ⟨.notifyOne none, trivial, by simp [TWorkQueue.step, hpos, hwaiting]⟩
  · exact ⟨.notifyAll, trivial, by simp [TWorkQueue.step, hall]⟩

theorem holding_step {w task : Nat} (hw : s.threads[w]? = some (.holding task))
    (hs : Stepped s a s') :
    task ∈ s'.called ∨ (s'.threads[w]? = some (.holding task) ∧ ¬ OfThread w a) := by
  have hset : ∀ {w' : Nat} {v v' : Thread}, s.threads[w']? = some v → v ≠ .holding task →
      (s.threads.set w' v')[w]? = some (.holding task) ∧ w' ≠ w := by
    intro w' v v' hw' hv
    have hne : w' ≠ w := by
      rintro rfl
      exact hv (Option.some.inj (hw'.symm.trans hw))
    exact ⟨by rwa [getElem?_set_ne hne], hne⟩
  cases hs with
  | accept _ | throw _ | notifyNobody _ _ | setStop _ => exact Or.inr ⟨hw, id⟩
  | notifyAll _ =>
    refine Or.inr ⟨?_, id⟩
    show (s.threads.map Thread.wake)[w]? = _
    rw [getElem?_map, hw]
    rfl
  | notify _ hw' | wakeUp hw' => exact Or.inr ⟨(hset hw' (by simp)).1, id⟩
  | wait hw' _ _ | leave hw' _ _ | take hw' _ | finish hw' => exact Or.inr (hset hw' (by simp))
  | @call w' task' hw' =>
    by_cases heq : task' = task
    · exact Or.inl (mem_append_right _ (mem_singleton.mpr heq.symm))
    · exact Or.inr (hset hw' (by simpa using heq))

section Fair

variable {b : Behaviour TWorkQueue.step (start thdCnt)}

theorem queued_progress (hpos : 1 ≤ thdCnt) (hthreads : ∀ w, b.WeaklyFair (OfThread w))
    (hcallers : b.WeaklyFair OfCaller) {task n : Nat} (hq : Queued task (b.state n)) :
    ∃ m, n ≤ m ∧ Nearer task (b.state n) (b.state m) := by
  have hsame : NoNearer task (b.state n) (b.state n) := ⟨hq, rfl, rfl⟩
  by_cases hawake : ∃ v ∈ (b.state n).threads, IsAwake v
  · obtain ⟨v, hv, hv'⟩ := hawake
    obtain ⟨w, hw⟩ := mem_iff_getElem?.mp hv
    refine Behaviour.ensures (hthreads w) ?_ ?_ hsame
    · intro s _ ⟨_, _, hs⟩
      exact enabled_ofThread_iff.mpr ⟨v, hs ▸ hw, hv'⟩
    · intro s a s' hr hs hstep
      exact (noNearer_step (.of_reachable hpos hr) hs (step_cases hstep)).imp_right
        fun h => ⟨h.1, h.2.1 w⟩
  · refine Behaviour.ensures hcallers ?_ ?_ hsame
    · intro s hr ⟨hqs, _, hs⟩
      have h := PoolSound.of_reachable hpos hr
      rcases h.attended (hqs.queue_ne_nil h) with hnotifies | hall | hawake'
      · exact enabled_ofCaller (Or.inl hnotifies)
      · exact enabled_ofCaller (Or.inr hall)
      · rw [hs] at hawake'
        exact absurd hawake' hawake
    · intro s a s' hr hs hstep
      have hsound := PoolSound.of_reachable hpos hr
      refine (noNearer_step hsound hs (step_cases hstep)).imp_right fun h => ⟨h.1, ?_⟩
      -- nobody is awake, so somebody is asleep, and is notified
      intro hcaller
      exact hawake (hs.2.2 ▸ exists_awake (hsound.threads_ne_nil hpos) hsound.left
        (hs.1.queue_ne_nil hsound) (h.2.2 hcaller))

theorem eventually_taken (hpos : 1 ≤ thdCnt) (hthreads : ∀ w, b.WeaklyFair (OfThread w))
    (hcallers : b.WeaklyFair OfCaller) {task n : Nat} (hn : task < (b.state n).accepted) :
    ∃ m, n ≤ m ∧ task < (b.state m).taken.length := by
  by_cases htaken : task < (b.state n).taken.length
  · exact ⟨n, Nat.le_refl n, htaken⟩
  · exact Behaviour.eventually_of_rank (P := Queued task) (Q := fun s => task < s.taken.length)
      (stepsLeft task) (fun n hq => queued_progress hpos hthreads hcallers hq)
      ⟨Nat.le_of_not_lt htaken, hn⟩

theorem eventually_called (hpos : 1 ≤ thdCnt) (hthreads : ∀ w, b.WeaklyFair (OfThread w))
    {task n : Nat} (hn : task < (b.state n).taken.length) :
    ∃ m, n ≤ m ∧ task ∈ (b.state m).called := by
  by_cases hcalled : task ∈ (b.state n).called
  · exact ⟨n, Nat.le_refl n, hcalled⟩
  · have h := PoolSound.of_reachable hpos (b.reachable n)
    have hhands := h.hands task
    rw [h.count_taken, if_pos hn, List.count_eq_zero.mpr hcalled, Nat.zero_add] at hhands
    obtain ⟨w, hw⟩ := mem_iff_getElem?.mp (count_pos_iff.mp (hhands ▸ Nat.one_pos))
    refine Behaviour.ensures (P := fun s => s.threads[w]? = some (.holding task))
      (Q := fun s => task ∈ s.called) (hthreads w) ?_ ?_ hw
    · intro s _ hs
      exact enabled_ofThread_iff.mpr ⟨_, hs, trivial⟩
    · exact fun s a s' _ hs hstep => holding_step hs (step_cases hstep)

end Fair

/--
**The op threads lose no accepted task.**

For any number of threads, in every state of every run, the tasks that were taken and the tasks in
the queue are the accepted ones in their order; no task is called twice, or before it was taken;
and when all threads have returned the queue is empty and every task has been called. `add_task`
throws if and only if `stop` was set before its locked section. And where every thread gets its
turn, and so do those who have to notify, every accepted task is called.
-/
theorem accepted_called_once (thdCnt : Nat) (hpos : 1 ≤ thdCnt) :
    (∀ s, Reachable TWorkQueue.step Unrestricted (start thdCnt) s →
      s.taken ++ s.jobQueue = List.range s.accepted
        ∧ s.called.Nodup ∧ (∀ task ∈ s.called, task ∈ s.taken)
        ∧ ((∀ v ∈ s.threads, v = .returned) →
            s.jobQueue = [] ∧ s.called.Perm (List.range s.accepted)))
    ∧ (∀ acts s, run TWorkQueue.step Unrestricted (start thdCnt) acts = some s →
        (s.addTask = .error "add_task on stopped WorkQueue" ↔ .setStop ∈ acts))
    ∧ ∀ b : Behaviour TWorkQueue.step (start thdCnt), (∀ w, b.WeaklyFair (OfThread w)) →
        b.WeaklyFair OfCaller →
        ∀ n, ∀ task < (b.state n).accepted, ∃ m, n ≤ m ∧ task ∈ (b.state m).called := by
  refine ⟨fun s hr => ?_, fun acts s hrun => ?_, fun b hthreads hcallers n task hn => ?_⟩
  · have h := PoolSound.of_reachable hpos hr
    refine ⟨h.order, h.nodup_called, fun task htask => ?_, fun hall => ?_⟩
    · have hhands := h.hands task
      have := count_pos_iff.mpr htask
      exact count_pos_iff.mp (by omega)
    · obtain ⟨v, hv⟩ := exists_mem_of_ne_nil _ (h.threads_ne_nil hpos)
      have hempty := (h.left (hall v hv ▸ hv)).2
      have hperm := h.called_perm fun task hmem => Thread.noConfusion (hall _ hmem)
      rw [← h.order, hempty, append_nil]
      exact ⟨rfl, hperm⟩
  · rw [addTask_eq_error_iff, stop_iff_of_run hrun]
    exact or_iff_right (by simp [start])
  · obtain ⟨m, hm, htaken⟩ := eventually_taken hpos hthreads hcallers hn
    obtain ⟨m', hm', hcalled⟩ := eventually_called hpos hthreads htaken
    exact ⟨m', Nat.le_trans hm hm', hcalled⟩

def wokenUp : List Act :=
  [.lockedSection 0, .lockedSection 1, .addTask, .notifyOne (some 1), .lockedSection 1, .call 1,
    .finish 1, .lockedSection 1]

theorem wokenUp_called :
    ∃ b : Behaviour TWorkQueue.step (start 2), (∀ w, b.WeaklyFair (OfThread w))
      ∧ b.WeaklyFair OfCaller ∧ 0 < (b.state 3).accepted
      ∧ ∃ m, 3 ≤ m ∧ 0 ∈ (b.state m).called := by
  have htest : (run TWorkQueue.step Unrestricted (start 2) wokenUp).map (fun s =>
      decide (s.threads = [.waiting, .waiting] ∧ s.notifies = 0 ∧ s.notifiesAll = false))
        = some true := by decide
  obtain ⟨t, hrun, ht⟩ := Option.map_eq_some_iff.mp htest
  obtain ⟨hthreads, hnotifies, hall⟩ := of_decide_eq_true ht
  have hfair : ∀ w, (Behaviour.ofRun hrun).WeaklyFair (OfThread w) := by
    intro w
    refine Behaviour.weaklyFair_ofRun hrun fun henabled => ?_
    obtain ⟨v, hv, hawake⟩ := enabled_ofThread_iff.mp henabled
    have hasleep : v = .waiting := by
      have hmem := mem_of_getElem? hv
      rw [hthreads] at hmem
      simpa using hmem
    exact (hasleep ▸ hawake : IsAwake .waiting)
  have hcallers : (Behaviour.ofRun hrun).WeaklyFair OfCaller := by
    refine Behaviour.weaklyFair_ofRun hrun ?_
    intro ⟨a, hcaller, henabled⟩
    obtain ⟨s', hs⟩ := Option.isSome_iff_exists.mp henabled
    cases step_cases hs with
    | notify hlt _ | notifyNobody hlt _ => omega
    | notifyAll h => rw [hall] at h; exact Bool.noConfusion h
    | accept _ | throw _ | setStop _ | wait _ _ _ | leave _ _ _ | take _ _ | call _ | finish _
    | wakeUp _ => exact hcaller
  have haccepted : 0 < ((Behaviour.ofRun hrun).state 3).accepted := by
    show 0 < ((run TWorkQueue.step Unrestricted (start 2) (wokenUp.take 3)).getD (start 2)).accepted
    decide
  exact ⟨_, hfair, hcallers, haccepted,
    (accepted_called_once 2 (by decide)).2.2 _ hfair hcallers 3 0 haccepted⟩

end HDCS.Proof
