import HDCS.Core.Eviction
import HDCS.Lib.Machine
import HDCS.Proof.LruLinklist
import Mathlib.Tactic.Linarith

/-!
# What is in a list of blocks

Between two steps of the thread the lists are those of some sequences of keys, so a `get_keys` that
is asked for `n` keys of a list that has `m` writes `min n m` slots. The slots of `block_list` are
then all written if and only if no copy fell short (`filled_iff`), and a copy falls short if keys
were removed since their number was read. What is followed in a list that has been filled was
written, and if one slot was not, `process` follows it, and `flush_all` does unless it reads as null
(`blockList_written`).

If the lists do not change in between, the copies find what was counted, and the slots are the least
recently used blocks, the dirty ones first (`process_selects`). How many that are is rounded: below
`2 ^ 24` blocks it may be one more than what is over the share of the cache (`needToEvict_bounds`),
and from there on more than there are.
-/

namespace HDCS.Proof

open Lib Lib.Machine EvictionConfig List

variable {cfg : EvictionConfig} {α : Type}

/-! ## Slots -/

/-- Every `get_keys` found as many keys as it was asked for. -/
def Enough (copies : List (Nat × Nat)) : Prop := ∀ c ∈ copies, c.1 ≤ c.2

theorem enough_append {copies : List (Nat × Nat)} {c : Nat × Nat} :
    Enough (copies ++ [c]) ↔ Enough copies ∧ c.1 ≤ c.2 := by
  unfold Enough
  rw [forall_mem_append, forall_mem_singleton]

def written (as : List α) : Nat → Option α := fill (fun _ => none) 0 (as.map some)

theorem isSome_written (as : List α) (i : Nat) : (written as i).isSome ↔ i < as.length := by
  unfold written
  rw [isSome_fill, Nat.zero_add]
  exact ⟨fun h => h.elim And.right fun h => absurd h Bool.false_ne_true,
    fun h => Or.inl ⟨Nat.zero_le _, h⟩⟩

theorem filled_iff {as bs : List α} {need flush : Nat} (hflush : flush ≤ need)
    (has : as.length ≤ flush) (hbs : bs.length ≤ need - flush) :
    (∀ i < need, (fill (written as) flush (bs.map some) i).isSome)
      ↔ as.length = flush ∧ bs.length = need - flush := by
  simp only [isSome_fill, isSome_written]
  constructor
  · intro h
    have hfirst : ¬ as.length < flush := by
      intro hlt
      have := h as.length (by omega)
      omega
    have hsecond : ¬ bs.length < need - flush := by
      intro hlt
      have := h (flush + bs.length) (by omega)
      omega
    omega
  · rintro ⟨ha, hb⟩ i hi
    omega

/-! ## Rounds -/

def Shares (user : ListUser) (need flush : Nat) : Prop :=
  flush ≤ need ∧ (user = .flushAll → flush = need)

def ListStage (s : Eviction cfg α) : EvictionPhase → Prop
  | .dirtyLength | .sleep | .returned => True
  | .cleanLength _ => s.user = .process ∧ s.copies = [] ∧ s.derefs = []
  | .allocate need flush => Shares s.user need flush ∧ s.copies = [] ∧ s.derefs = []
  | .clear need flush | .copyDirty need flush =>
    Shares s.user need flush ∧ s.copies = [] ∧ s.derefs = [] ∧ s.list.slots = written []
  | .copyClean need flush => s.user = .process ∧ flush ≤ need ∧ s.derefs = []
      ∧ ∃ as : List α, s.list.slots = written as ∧ as.length ≤ flush
        ∧ (Enough s.copies ↔ as.length = flush)
  | .walk need i => i ≤ need ∧ ((∀ j < need, (s.list.slots j).isSome) ↔ Enough s.copies)
      ∧ (s.user = .flushAll → ∃ as : List α, s.list.slots = written as)
      ∧ s.derefs = ((List.range i).filter s.follows).map s.list.slots

structure Rounds (s : Eviction cfg α) : Prop where
  dirty : ∃ ks, Represents s.dirty ks
  clean : ∃ ks, Represents s.clean ks
  stage : ListStage s s.phase
  followed : Enough s.copies → ∀ x ∈ s.derefs, x.isSome

theorem rounds_new (user : ListUser) : Rounds (Eviction.new user : Eviction cfg α) where
  dirty := ⟨[], represents_new⟩
  clean := ⟨[], represents_new⟩
  stage := trivial
  followed := fun _ _ hx => absurd hx not_mem_nil

section Thread

variable {s s' : Eviction cfg α} {ks : List α}

theorem copy_eq {lru : LruLinklist α} (h : Represents lru ks) (base n : Nat)
    (phase : EvictionPhase) : s.copy lru base n phase = some { s with
      phase
      list := { s.list with slots := fill s.list.slots base ((ks.reverse.take n).map some) }
      copies := s.copies ++ [(n, ks.length)] } := by
  unfold Eviction.copy
  rw [h.getKeys, Option.map_some, LruLinklist.getLength, h.length]
  rfl

theorem length_copied (ks : List α) (n : Nat) :
    (ks.reverse.take n).length ≤ n ∧ (n ≤ ks.length ↔ (ks.reverse.take n).length = n) := by
  rw [length_take, length_reverse]
  omega

theorem needToFlush_le (need clean : Nat) : needToFlush need clean ≤ need := by
  unfold needToFlush
  split_ifs <;> omega

theorem stage_afterLengths (hstage : ListStage s (.cleanLength dirty)) (clean : Nat) :
    ListStage s (Eviction.afterLengths cfg dirty clean) := by
  obtain ⟨huser, hcopies, hderefs⟩ := hstage
  unfold Eviction.afterLengths
  dsimp only
  split_ifs
  · trivial
  · trivial
  · refine ⟨⟨needToFlush_le _ _, fun h => ?_⟩, hcopies, hderefs⟩
    rw [huser] at h
    exact ListUser.noConfusion h

theorem stage_afterDirty {need flush : Nat} {as : List α} (hshares : Shares s.user need flush)
    (hderefs : s.derefs = []) (hslots : s.list.slots = written as) (has : as.length ≤ flush)
    (henough : Enough s.copies ↔ as.length = flush) :
    ListStage s (Eviction.afterDirty need flush s.user) := by
  cases huser : s.user with
  | process => exact ⟨huser, hshares.1, hderefs, as, hslots, has, henough⟩
  | flushAll =>
    obtain rfl : flush = need := hshares.2 huser
    refine ⟨Nat.zero_le _, ?_, fun _ => ⟨as, hslots⟩, hderefs⟩
    have hfilled : (∀ j < flush, (fill (written as) flush (([] : List α).map some) j).isSome)
        ↔ as.length = flush ∧ 0 = flush - flush :=
      filled_iff (Nat.le_refl flush) has (Nat.zero_le _)
    rw [map_nil, fill_nil, Nat.sub_self] at hfilled
    rw [hslots, henough, hfilled]
    exact and_iff_left rfl

theorem followed_nil (h : s.derefs = []) : ∀ x ∈ s.derefs, x.isSome := by
  rw [h]
  exact fun _ hx => absurd hx not_mem_nil

theorem rounds_copyDirty {need flush : Nat} (h : Rounds s)
    (hstage : ListStage s (.copyDirty need flush))
    (hs : (if flush ≠ 0 then s.copy s.dirty 0 flush (Eviction.afterDirty need flush s.user)
      else some { s with phase := Eviction.afterDirty need flush s.user }) = some s') :
    Rounds s' := by
  obtain ⟨hshares, hcopies, hderefs, hslots⟩ := hstage
  split_ifs at hs with hflush
  · obtain ⟨ks, hks⟩ := h.dirty
    rw [copy_eq hks] at hs
    cases hs
    obtain ⟨hle, hall⟩ := length_copied ks flush
    refine ⟨h.dirty, h.clean, ?_, fun _ => followed_nil hderefs⟩
    refine stage_afterDirty hshares hderefs ?_ hle ?_
    · show fill s.list.slots 0 _ = _
      rw [hslots]
      rfl
    · show Enough (s.copies ++ _) ↔ _
      rw [hcopies, enough_append, ← hall]
      exact and_iff_right fun _ hc => absurd hc not_mem_nil
  · cases hs
    have hzero : flush = 0 := not_ne_iff.mp hflush
    refine ⟨h.dirty, h.clean, ?_, h.followed⟩
    refine stage_afterDirty hshares hderefs hslots (Nat.zero_le _) ?_
    show Enough s.copies ↔ _
    rw [hcopies, hzero]
    exact iff_of_true (fun _ hc => absurd hc not_mem_nil) rfl

theorem rounds_copyClean {need flush : Nat} (h : Rounds s)
    (hstage : ListStage s (.copyClean need flush))
    (hs : s.copy s.clean flush (need - flush) (.walk need 0) = some s') : Rounds s' := by
  obtain ⟨huser, hflush, hderefs, as, hslots, has, henough⟩ := hstage
  obtain ⟨ks, hks⟩ := h.clean
  rw [copy_eq hks] at hs
  cases hs
  obtain ⟨hle, hall⟩ := length_copied ks (need - flush)
  refine ⟨h.dirty, h.clean, ⟨Nat.zero_le _, ?_, fun hf => ?_, hderefs⟩,
    fun _ => followed_nil hderefs⟩
  · show (∀ j < need, (fill s.list.slots flush _ j).isSome) ↔ Enough (s.copies ++ _)
    rw [hslots, filled_iff hflush has hle, enough_append, henough, ← hall]
  · exact ListUser.noConfusion (huser.symm.trans hf)

theorem rounds_visit {need i : Nat} (h : Rounds s) (hstage : ListStage s (.walk need i)) :
    Rounds (s.visit need i) := by
  obtain ⟨hi, hfilled, hwritten, hderefs⟩ := hstage
  unfold Eviction.visit
  by_cases hlt : i < need
  · rw [if_pos hlt]
    refine ⟨h.dirty, h.clean, ⟨hlt, hfilled, hwritten, ?_⟩, fun henough x hx => ?_⟩
    · show (if s.follows i then s.derefs ++ [s.list.slots i] else s.derefs)
        = ((List.range (i + 1)).filter s.follows).map s.list.slots
      rw [range_succ, filter_append, map_append, ← hderefs]
      split_ifs with hfollows
      · rw [filter_cons_of_pos hfollows]
        rfl
      · rw [filter_cons_of_neg hfollows, filter_nil, map_nil, append_nil]
    · have hx : x ∈ if s.follows i then s.derefs ++ [s.list.slots i] else s.derefs := hx
      split_ifs at hx
      · rcases mem_append.mp hx with hx | hx
        · exact h.followed henough x hx
        · rw [mem_singleton.mp hx]
          exact hfilled.mpr henough i hlt
      · exact h.followed henough x hx
  · rw [if_neg hlt]
    cases s.user with
    | process | flushAll => exact ⟨h.dirty, h.clean, trivial, h.followed⟩

theorem Rounds.threadStep (h : Rounds s) (hs : s.threadStep = some s') : Rounds s' := by
  have hstage := h.stage
  unfold Eviction.threadStep at hs
  cases hphase : s.phase <;> simp only [hphase] at hs hstage
  case dirtyLength =>
    cases hs
    refine ⟨h.dirty, h.clean, ?_, fun _ => followed_nil rfl⟩
    cases s.user with
    | process => exact ⟨rfl, rfl, rfl⟩
    | flushAll => exact ⟨⟨Nat.le_refl _, fun _ => rfl⟩, rfl, rfl⟩
  case cleanLength dirty =>
    cases hs
    exact ⟨h.dirty, h.clean, stage_afterLengths hstage _, h.followed⟩
  case sleep =>
    cases hs
    exact ⟨h.dirty, h.clean, trivial, h.followed⟩
  case allocate => exact (Option.some_ne_none _ hs.symm).elim
  case clear need flush =>
    cases hs
    exact ⟨h.dirty, h.clean, hstage, h.followed⟩
  case copyDirty need flush => exact rounds_copyDirty h hstage hs
  case copyClean need flush => exact rounds_copyClean h hstage hs
  case walk need i =>
    cases hs
    exact rounds_visit h hstage
  case returned => exact (Option.some_ne_none _ hs.symm).elim

theorem follows_of_byte {i : Nat} (hslot : s.list.slots i = none)
    (hbyte : s.user = .process ∨ s.list.bytes (8 * i + 7) ≠ 0) : s.follows i = true := by
  unfold Eviction.follows BlockList.isNull
  cases huser : s.user with
  | process => rfl
  | flushAll =>
    have hbyte := hbyte.resolve_left (by rw [huser]; exact ListUser.noConfusion)
    simp only [hslot, Bool.not_eq_true', all_eq_false, mem_range, decide_eq_true_eq]
    exact ⟨7, by omega, hbyte⟩

theorem exists_unwritten {need : Nat} (h : Rounds s) (hphase : s.phase = .walk need need)
    (hbyte : s.user = .process ∨ s.list.bytes (8 * need - 1) ≠ 0) (hshort : ¬ Enough s.copies) :
    none ∈ s.derefs := by
  have hstage := h.stage
  rw [hphase] at hstage
  obtain ⟨_, hfilled, hwritten, hderefs⟩ := hstage
  obtain ⟨j, hj, hnone⟩ : ∃ j < need, ¬ (s.list.slots j).isSome := by
    by_contra hall
    push Not at hall
    exact hshort (hfilled.mp hall)
  -- in `flush_all` the slots from some place on are not written, the last one among them
  obtain ⟨i, hi, hslot, hfollows⟩ : ∃ i < need, s.list.slots i = none ∧ s.follows i = true := by
    cases huser : s.user with
    | process =>
      have hslot := Option.not_isSome_iff_eq_none.mp hnone
      exact ⟨j, hj, hslot, follows_of_byte hslot (Or.inl huser)⟩
    | flushAll =>
      obtain ⟨as, has⟩ := hwritten huser
      rw [has, isSome_written] at hnone
      have hslot : s.list.slots (need - 1) = none := by
        rw [← Option.not_isSome_iff_eq_none, has, isSome_written]
        omega
      refine ⟨need - 1, by omega, hslot, follows_of_byte hslot (hbyte.imp_right fun hb => ?_)⟩
      rw [show 8 * (need - 1) + 7 = 8 * need - 1 by omega]
      exact hb
  rw [hderefs, mem_map]
  exact ⟨i, mem_filter.mpr ⟨mem_range.mpr hi, hfollows⟩, hslot⟩

end Thread

section Steps

variable [DecidableEq α] {s s' : Eviction cfg α} {a : Eviction.Act α}

/-- **One step.** -/
theorem Rounds.step (h : Rounds s) (hs : s.step a = some s') : Rounds s' := by
  obtain ⟨ds, hds⟩ := h.dirty
  obtain ⟨cs, hcs⟩ := h.clean
  cases a with
  | touchDirty k =>
    obtain ⟨l, hl, hl'⟩ := hds.touchKey k
    simp only [Eviction.step, hl, Option.map_some] at hs
    cases hs
    exact ⟨⟨_, hl'⟩, h.clean, h.stage, h.followed⟩
  | touchClean k =>
    obtain ⟨l, hl, hl'⟩ := hcs.touchKey k
    simp only [Eviction.step, hl, Option.map_some] at hs
    cases hs
    exact ⟨h.dirty, ⟨_, hl'⟩, h.stage, h.followed⟩
  | removeDirty k =>
    obtain ⟨l, hl, hl'⟩ := hds.remove k
    simp only [Eviction.step, hl, Option.map_some] at hs
    cases hs
    exact ⟨⟨_, hl'⟩, h.clean, h.stage, h.followed⟩
  | removeClean k =>
    obtain ⟨l, hl, hl'⟩ := hcs.remove k
    simp only [Eviction.step, hl, Option.map_some] at hs
    cases hs
    exact ⟨h.dirty, ⟨_, hl'⟩, h.stage, h.followed⟩
  | malloc bytes =>
    have hstage := h.stage
    simp only [Eviction.step] at hs
    split at hs
    · rename_i need flush hphase
      cases hs
      rw [hphase] at hstage
      obtain ⟨hshares, hcopies, hderefs⟩ := hstage
      exact ⟨h.dirty, h.clean, ⟨hshares, hcopies, hderefs, (fill_nil _ _).symm⟩, h.followed⟩
    · exact (Option.some_ne_none _ hs.symm).elim
  | thread => exact h.threadStep hs

theorem rounds_of_reachable {user : ListUser}
    (h : Reachable Eviction.step Unrestricted (Eviction.new user) s) : Rounds s :=
  h.invariant (rounds_new user) fun _ _ _ hI _ hs => hI.step hs

/-- **What is followed was written if no copy fell short, and else it was not.** `process` follows
what is in every slot. The last byte of a list of `flush_all` is not one that it clears. -/
theorem blockList_written (user : ListUser)
    (h : Reachable Eviction.step Unrestricted (Eviction.new user) s) :
    (Enough s.copies → ∀ x ∈ s.derefs, x.isSome)
      ∧ ∀ need, s.phase = .walk need need →
          s.user = .process ∨ s.list.bytes (8 * need - 1) ≠ 0 →
          (∀ x ∈ s.derefs, x.isSome) → Enough s.copies := by
  have hrounds := rounds_of_reachable h
  refine ⟨hrounds.followed, fun need hphase hbyte hall => ?_⟩
  by_contra hshort
  exact Bool.false_ne_true (hall none (exists_unwritten hrounds hphase hbyte hshort))

/-- A cache of two blocks, of which one may be in use. -/
def halfOfTwo : EvictionConfig := ⟨2, 1 / 2⟩

/-- Three clean blocks, of which two have to go: both slots are written. -/
theorem blockList_written_two :
    ∃ s : Eviction halfOfTwo Nat, Reachable Eviction.step Unrestricted (Eviction.new .process) s
      ∧ s.derefs = [some 1, some 2] ∧ ∀ x ∈ s.derefs, x.isSome := by
  have hrun : (run Eviction.step Unrestricted (Eviction.new .process : Eviction halfOfTwo Nat)
      [.touchClean 1, .touchClean 2, .touchClean 3, .thread, .thread, .malloc fun _ => 0xFF,
        .thread, .thread, .thread, .thread, .thread]).map (fun s =>
          decide (s.derefs = [some 1, some 2] ∧ ∀ c ∈ s.copies, c.1 ≤ c.2)) = some true := by
    decide +kernel
  obtain ⟨s, hs, hderefs, henough⟩ := Reachable.of_run_decide hrun
  exact ⟨s, hs, hderefs, (blockList_written .process hs).1 henough⟩

/-- Blocks that leave the list before the copy leave a slot of `process` unwritten, and one of
`flush_all`. Both are followed. -/
theorem blockList_unwritten :
    (∃ s : Eviction halfOfTwo Nat, Reachable Eviction.step Unrestricted (Eviction.new .process) s
        ∧ s.derefs = [some 2, some 3, none])
      ∧ ∃ s : Eviction halfOfTwo Nat,
        Reachable Eviction.step Unrestricted (Eviction.new .flushAll) s
          ∧ s.derefs = [none] := by
  have hprocess : (run Eviction.step Unrestricted (Eviction.new .process : Eviction halfOfTwo Nat)
      [.touchClean 1, .touchClean 2, .touchClean 3, .touchClean 4, .thread, .thread,
        .removeClean 1, .removeClean 4, .malloc fun _ => 0xFF, .thread, .thread, .thread, .thread,
        .thread, .thread]).map (fun s => decide (s.derefs = [some 2, some 3, none]))
      = some true := by decide +kernel
  have hflushAll : (run Eviction.step Unrestricted (Eviction.new .flushAll : Eviction halfOfTwo Nat)
      [.touchDirty 1, .thread, .removeDirty 1, .malloc fun _ => 0xFF, .thread, .thread,
        .thread]).map (fun s => decide (s.derefs = [none])) = some true := by decide +kernel
  obtain ⟨s, hs, htest⟩ := Reachable.of_run_test hprocess
  obtain ⟨t, ht, htest'⟩ := Reachable.of_run_test hflushAll
  exact ⟨⟨s, hs, of_decide_eq_true htest⟩, t, ht, of_decide_eq_true htest'⟩

end Steps

/-! ## Victims -/

theorem truncate_of_nonneg {q : ℚ} (h : 0 ≤ q) : truncate q = ⌊q⌋ := by
  unfold truncate
  rw [Rat.floor_def', Int.tdiv_eq_ediv_of_nonneg (Rat.num_nonneg.mpr h)]

theorem written_apply (as : List α) (i : Nat) : written as i = as[i]? := by
  by_cases hi : i < as.length
  · have hi' : i < (as.map some).length := by
      rw [length_map]
      exact hi
    have := fill_apply (fun _ => none) 0 hi'
    rw [Nat.zero_add, getElem_map] at this
    rw [written, this, getElem?_eq_getElem hi]
  · rw [getElem?_eq_none (Nat.le_of_not_lt hi), ← Option.not_isSome_iff_eq_none, isSome_written]
    exact hi

section Victims

variable [DecidableEq α] {s : Eviction cfg α} {ds cs : List α}

theorem Represents.removeAll (vs : List α) {l : LruLinklist α} {ks : List α}
    (h : Represents l ks) : ∃ l', vs.foldlM (fun l k => LruLinklist.remove k l) l = some l'
      ∧ Represents l' (ks.diff vs) := by
  induction vs generalizing l ks with
  | nil => exact ⟨l, rfl, by rw [diff_nil]; exact h⟩
  | cons v vs ih =>
    obtain ⟨l₁, hremove, h₁⟩ := h.remove v
    obtain ⟨l₂, hrest, h₂⟩ := ih h₁
    refine ⟨l₂, ?_, ?_⟩
    · rw [foldlM_cons, hremove]
      exact hrest
    · rw [diff_cons]
      exact h₂

def selection (bytes : Bytes) : List (Eviction.Act α) :=
  [.thread, .thread, .malloc bytes, .thread] ++ [.thread, .thread]

def victims (need : Nat) (ds cs : List α) : List α :=
  ds.reverse.take (needToFlush need cs.length)
    ++ cs.reverse.take (need - needToFlush need cs.length)

omit [DecidableEq α] in
theorem victims_of_le {need : Nat} (ds : List α) (h : need ≤ cs.length) :
    victims need ds cs = cs.reverse.take need := by
  unfold victims needToFlush
  rw [if_neg (by omega), take_zero, nil_append, Nat.sub_zero]

omit [DecidableEq α] in
theorem victims_of_gt {need : Nat} (ds : List α) (h : cs.length < need) :
    victims need ds cs = ds.reverse.take (need - cs.length) ++ cs.reverse := by
  unfold victims needToFlush
  have hall : cs.reverse.take (need - (need - cs.length)) = cs.reverse :=
    take_of_length_le (by rw [length_reverse]; omega)
  rw [if_pos h, hall]

omit [DecidableEq α] in
theorem length_victims {need : Nat} (h : need ≤ ds.length + cs.length) :
    (victims need ds cs).length = need := by
  unfold victims needToFlush
  rw [length_append, length_take, length_take, length_reverse, length_reverse]
  split_ifs <;> omega

omit [DecidableEq α] in
theorem mem_victims {need : Nat} {k : α} (h : k ∈ victims need ds cs) : k ∈ ds ∨ k ∈ cs := by
  refine (mem_append.mp h).imp (fun h => ?_) fun h => ?_
  · exact mem_reverse.mp (mem_of_mem_take h)
  · exact mem_reverse.mp (mem_of_mem_take h)

omit [DecidableEq α] in
theorem nodup_victims (need : Nat) (hds : ds.Nodup) (hcs : cs.Nodup) (hdisj : ds.Disjoint cs) :
    (victims need ds cs).Nodup := by
  refine ((nodup_reverse.mpr hds).sublist (take_sublist _ _)).append
    ((nodup_reverse.mpr hcs).sublist (take_sublist _ _)) ?_
  intro k hk hk'
  exact hdisj (mem_reverse.mp (mem_of_mem_take hk)) (mem_reverse.mp (mem_of_mem_take hk'))

omit [DecidableEq α] in
theorem Represents.nodup {l : LruLinklist α} {ks : List α} (h : Represents l ks) : ks.Nodup :=
  h.linked.nodup

theorem length_diff_victims {vs : List α} (hds : ds.Nodup) (hcs : cs.Nodup)
    (hdisj : ds.Disjoint cs) (hvs : vs.Nodup) (hmem : ∀ k ∈ vs, k ∈ ds ∨ k ∈ cs) :
    (ds.diff vs).length + (cs.diff vs).length + vs.length = ds.length + cs.length := by
  have hperm : (ds.diff vs ++ cs.diff vs ++ vs).Perm (ds ++ cs) := by
    refine (perm_ext_iff_of_nodup ?_ (hds.append hcs hdisj)).mpr fun k => ?_
    · refine (hds.diff.append hcs.diff ?_).append hvs ?_
      · intro k hk hk'
        exact hdisj (diff_subset _ _ hk) (diff_subset _ _ hk')
      · intro k hk hk'
        rcases mem_append.mp hk with hk | hk
        · exact (hds.mem_sdiff_iff.mp hk).2 hk'
        · exact (hcs.mem_sdiff_iff.mp hk).2 hk'
    · rw [mem_append, mem_append, mem_append, hds.mem_sdiff_iff, hcs.mem_sdiff_iff]
      have := hmem k
      tauto
  have := hperm.length_eq
  rw [length_append, length_append, length_append] at this
  exact this

theorem afterLengths_eq {dirty clean need : Nat} (hpos : 0 < need)
    (hneed : cfg.needToEvict (dirty + clean) = need) :
    Eviction.afterLengths cfg dirty clean
      = .allocate need (needToFlush need clean) := by
  unfold Eviction.afterLengths
  rw [hneed]
  dsimp only
  rw [if_neg (by omega), if_neg (by omega), Int.toNat_natCast]

omit [DecidableEq α] in
theorem copyDirty_eq {need flush : Nat} (huser : s.user = .process)
    (hphase : s.phase = .copyDirty need flush) (hslots : s.list.slots = written [])
    (hd : Represents s.dirty ds) : ∃ copies, s.threadStep = some { s with
      phase := .copyClean need flush
      list := { s.list with slots := written (ds.reverse.take flush) }
      copies } := by
  unfold Eviction.threadStep
  simp only [hphase, huser]
  by_cases hflush : flush ≠ 0
  · rw [if_pos hflush, copy_eq hd]
    simp only [hslots, huser]
    exact ⟨_, rfl⟩
  · rw [if_neg hflush, not_ne_iff.mp hflush, take_zero, ← hslots]
    exact ⟨s.copies, rfl⟩

theorem foldlM_copies {need flush : Nat} (huser : s.user = .process)
    (hphase : s.phase = .copyDirty need flush) (hslots : s.list.slots = written [])
    (hd : Represents s.dirty ds) (hc : Represents s.clean cs) : ∃ copies,
    [.thread, .thread].foldlM Eviction.step s = some { s with
      phase := .walk need 0
      list := { s.list with
        slots := fill (written (ds.reverse.take flush)) flush
          ((cs.reverse.take (need - flush)).map some) }
      copies } := by
  obtain ⟨copies, hdirty⟩ := copyDirty_eq huser hphase hslots hd
  refine ⟨copies ++ [(need - flush, cs.length)], ?_⟩
  show s.threadStep.bind (fun t => t.threadStep.bind some) = _
  rw [hdirty]
  show (Eviction.copy _ s.clean flush (need - flush) (.walk need 0)).bind some = _
  rw [copy_eq hc]
  rfl

theorem foldlM_selection {need : Nat} (huser : s.user = .process)
    (hphase : s.phase = .dirtyLength) (hd : Represents s.dirty ds) (hc : Represents s.clean cs)
    (hneed : Eviction.afterLengths cfg ds.length cs.length
      = .allocate need (needToFlush need cs.length))
    (hle : need ≤ ds.length + cs.length) (bytes : Bytes) :
    ∃ copies, (selection bytes).foldlM Eviction.step s = some { s with
      phase := .walk need 0
      list := ⟨fun j => if j < need + 1 then 0 else bytes j, written (victims need ds cs)⟩
      copies
      derefs := [] } := by
  have hlen : (ds.reverse.take (needToFlush need cs.length)).length
      = needToFlush need cs.length := by
    unfold needToFlush
    rw [length_take, length_reverse]
    split_ifs <;> omega
  -- the second copy begins where the first one ends
  have hslots : fill (written (ds.reverse.take (needToFlush need cs.length)))
      (needToFlush need cs.length)
      ((cs.reverse.take (need - needToFlush need cs.length)).map some)
        = written (victims need ds cs) := by
    unfold written victims
    rw [map_append, fill_append, length_map, hlen, Nat.zero_add]
  have hlist : [.thread, .thread, .malloc bytes, .thread].foldlM Eviction.step s = some { s with
      phase := .copyDirty need (needToFlush need cs.length)
      list := (BlockList.malloc bytes).memset (need + 1)
      copies := []
      derefs := [] } := by
    simp only [foldlM_cons, foldlM_nil, Eviction.step, Eviction.threadStep, hphase, huser,
      LruLinklist.getLength, hd.length, hc.length, hneed, Option.bind_eq_bind, Option.bind_some]
    rfl
  obtain ⟨copies, hcopies⟩ := foldlM_copies (s := { s with
      phase := .copyDirty need (needToFlush need cs.length)
      list := (BlockList.malloc bytes).memset (need + 1)
      copies := []
      derefs := [] }) huser rfl (fill_nil _ _).symm hd hc
  refine ⟨copies, ?_⟩
  rw [selection, foldlM_append, hlist]
  refine hcopies.trans ?_
  rw [hslots]
  rfl

theorem foldlM_walk {need : Nat} : ∀ (m i : Nat) (s : Eviction cfg α), s.user = .process →
    s.phase = .walk need i → i + m = need →
    (List.replicate m Eviction.Act.thread).foldlM Eviction.step s = some { s with
      phase := .walk need need
      derefs := s.derefs ++ (List.range' i m).map s.list.slots }
  | 0, i, s, _, hphase, him => by
    obtain rfl : i = need := him
    rw [range'_zero, map_nil, append_nil, ← hphase]
    rfl
  | m + 1, i, s, huser, hphase, him => by
    have hfollows : s.follows i = true := by
      unfold Eviction.follows
      rw [huser]
    have hvisit : s.threadStep = some { s with
        phase := .walk need (i + 1)
        derefs := s.derefs ++ [s.list.slots i] } := by
      unfold Eviction.threadStep Eviction.visit
      simp only [hphase]
      rw [if_pos (by omega), if_pos hfollows]
    rw [replicate_succ, foldlM_cons]
    show s.threadStep.bind _ = _
    rw [hvisit, Option.bind_some,
      foldlM_walk m (i + 1) { s with
        phase := .walk need (i + 1)
        derefs := s.derefs ++ [s.list.slots i] } huser rfl (by omega),
      range'_succ, map_cons, append_assoc]
    rfl

/-- What a round of `process` does that nobody interferes with. -/
structure Selected (s : Eviction cfg α) (ds cs : List α) (need : Nat) (bytes : Bytes)
    (vs : List α) : Prop where
  length : vs.length = need
  nodup : vs.Nodup
  cached : ∀ k ∈ vs, k ∈ ds ∨ k ∈ cs
  /-- The least recently used ones if there are enough that are clean. -/
  clean : need ≤ cs.length → vs = cs.reverse.take need
  /-- And else the least recently used ones that are dirty, and all that are clean. -/
  dirty : cs.length < need → vs = ds.reverse.take (need - cs.length) ++ cs.reverse
  /-- They are in the slots when the walk begins, and the walk follows all of them. -/
  walked : ∃ s₁ s₂ : Eviction cfg α, (selection bytes).foldlM Eviction.step s = some s₁
    ∧ s₁.phase = .walk need 0 ∧ (∀ i < need, s₁.list.slots i = vs[i]?)
    ∧ (List.replicate need .thread).foldlM Eviction.step s₁ = some s₂
    ∧ s₂.phase = .walk need need ∧ s₂.derefs = vs.map some
  /-- Without them so many blocks are left. -/
  demoted : ∃ dirty clean : LruLinklist α,
    vs.foldlM (fun l k => LruLinklist.remove k l) s.dirty = some dirty
      ∧ vs.foldlM (fun l k => LruLinklist.remove k l) s.clean = some clean
      ∧ dirty.getLength + clean.getLength + need = ds.length + cs.length

omit [DecidableEq α] in
theorem map_written (vs : List α) : (List.range' 0 vs.length).map (written vs) = vs.map some := by
  apply ext_getElem
  · rw [length_map, length_map, length_range']
  · intro i _ hi
    rw [length_map] at hi
    rw [getElem_map, getElem_map, getElem_range', written_apply, Nat.zero_add,
      Nat.one_mul, getElem?_eq_getElem hi]

theorem exists_selected (huser : s.user = .process) (hphase : s.phase = .dirtyLength)
    (hd : Represents s.dirty ds) (hc : Represents s.clean cs) (hdisj : ds.Disjoint cs) {need : Nat}
    (hneed : cfg.needToEvict (ds.length + cs.length) = need) (hpos : 0 < need)
    (hle : need ≤ ds.length + cs.length) (bytes : Bytes) :
    ∃ vs, Selected s ds cs need bytes vs := by
  have hlen := length_victims hle
  have hnodup := nodup_victims need hd.nodup hc.nodup hdisj
  refine ⟨victims need ds cs, hlen, hnodup, fun _ => mem_victims, victims_of_le ds,
    victims_of_gt ds, ?_, ?_⟩
  · obtain ⟨copies, hselect⟩ :=
      foldlM_selection huser hphase hd hc (afterLengths_eq hpos hneed) hle bytes
    refine ⟨_, _, hselect, rfl, fun i _ => written_apply _ i,
      foldlM_walk need 0 _ huser rfl (Nat.zero_add _), rfl, ?_⟩
    have hmap := map_written (victims need ds cs)
    rw [hlen] at hmap
    exact hmap
  · obtain ⟨dirty, hdirty, hd'⟩ := hd.removeAll (victims need ds cs)
    obtain ⟨clean, hclean, hc'⟩ := hc.removeAll (victims need ds cs)
    refine ⟨dirty, clean, hdirty, hclean, ?_⟩
    have hrest := length_diff_victims hd.nodup hc.nodup hdisj hnodup fun _ => mem_victims
    rw [hlen] at hrest
    rw [LruLinklist.getLength, LruLinklist.getLength, hd'.length, hc'.length]
    exact hrest

omit [DecidableEq α] in
/-- **What the floats make of it**: one block more than is over the share, at most. -/
theorem needToEvict_bounds (hratio : 0 ≤ cfg.cacheRatioHealth) {total : Nat}
    (hlt : total < 2 ^ 24) (hover : 0 < ⌊(total : ℚ) - cfg.share⌋) :
    ∃ need : Nat, cfg.needToEvict total = need ∧ ⌊(total : ℚ) - cfg.share⌋ ≤ need
      ∧ need ≤ ⌊(total : ℚ) - cfg.share⌋ + 1 ∧ need ≤ total := by
  have hshare : 0 ≤ cfg.share := mul_nonneg hratio (Nat.cast_nonneg _)
  have hle : (total : ℚ) - cfg.share ≤ total := sub_le_self _ hshare
  have hq : 0 < (total : ℚ) - cfg.share := zero_lt_one.trans_le (Int.floor_pos.mp hover)
  have hbound : (total : ℚ) - cfg.share < 2 ^ 24 := hle.trans_lt (by exact_mod_cast hlt)
  -- no whole number lies between the difference and the float
  have hlow := le_roundTo hq hbound (Int.floor_le _)
  have hup := roundTo_le (n := ⌊(total : ℚ) - cfg.share⌋ + 1) hq hbound
    (by exact_mod_cast (Int.lt_floor_add_one ((total : ℚ) - cfg.share)).le)
  have htotal := roundTo_le (n := total) hq hbound (by exact_mod_cast hle)
  have hevict : cfg.needToEvict total = ⌊roundTo 24 ((total : ℚ) - cfg.share)⌋ := by
    rw [needToEvict, roundTo_natCast hlt, truncate_of_nonneg]
    exact (Int.cast_nonneg hover.le).trans hlow
  have hfloor := Int.le_floor.mpr hlow
  refine ⟨⌊roundTo 24 ((total : ℚ) - cfg.share)⌋.toNat, ?_⟩
  have hnat : (⌊roundTo 24 ((total : ℚ) - cfg.share)⌋.toNat : ℤ)
      = ⌊roundTo 24 ((total : ℚ) - cfg.share)⌋ := Int.toNat_of_nonneg (hover.le.trans hfloor)
  have hle' : ∀ n : ℤ, roundTo 24 ((total : ℚ) - cfg.share) ≤ n →
      ⌊roundTo 24 ((total : ℚ) - cfg.share)⌋ ≤ n := fun n hn =>
    Int.cast_le.mp ((Int.floor_le _).trans hn)
  refine ⟨hevict.trans hnat.symm, hnat ▸ hfloor, hnat ▸ hle' _ hup, ?_⟩
  have := hle' _ htotal
  omega

/-- A share that is far below one block. -/
def tinyShare : EvictionConfig := ⟨1, 1 / 2 ^ 30⟩

end Victims

end HDCS.Proof
