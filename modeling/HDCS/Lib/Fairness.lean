import HDCS.Lib.Machine

/-!
# Runs that never end, and fairness

A `Behaviour` is a run without an end; in some of its rounds nothing may happen, so a
run that stops is one of them. What has to happen in it at some point is a matter of
who gets a turn: it is *weakly fair* to a group of actions if one of them is taken
whenever, from some point on, one of them is always possible.

There are two rules. If a state stays good until an action of the group is taken, and
such an action is possible as long as it does, then what the action brings about comes
(`Behaviour.ensures`). If something gets smaller again and again until the goal is
there, then it gets there (`Behaviour.eventually_of_rank`).
-/

namespace Lib.Machine

open List

variable {σ α : Type}

/-- A run that goes on for ever. -/
structure Behaviour (step : σ → α → Option σ) (s₀ : σ) where
  state : Nat → σ
  /-- What happens in a round. -/
  act : Nat → Option α
  state_zero : state 0 = s₀
  state_succ : ∀ n, (act n).elim (some (state n)) (step (state n)) = some (state (n + 1))

def Enabled (step : σ → α → Option σ) (group : α → Prop) (s : σ) : Prop :=
  ∃ a, group a ∧ (step s a).isSome

variable {step : σ → α → Option σ} {s₀ : σ}

/-- Where an action of the group is always possible, one is taken. -/
def Behaviour.WeaklyFair (b : Behaviour step s₀) (group : α → Prop) : Prop :=
  ∀ n, (∀ m, n ≤ m → Enabled step group (b.state m)) → ∃ m, n ≤ m ∧ ∃ a ∈ b.act m, group a

theorem Behaviour.next (b : Behaviour step s₀) (n : Nat) :
    (b.act n = none ∧ b.state (n + 1) = b.state n)
      ∨ ∃ a, b.act n = some a ∧ step (b.state n) a = some (b.state (n + 1)) := by
  have hsucc := b.state_succ n
  cases hact : b.act n with
  | none =>
    rw [hact] at hsucc
    exact Or.inl ⟨rfl, (Option.some.inj hsucc).symm⟩
  | some a =>
    rw [hact] at hsucc
    exact Or.inr ⟨a, rfl, hsucc⟩

theorem Behaviour.reachable (b : Behaviour step s₀) (n : Nat) :
    Reachable step Unrestricted s₀ (b.state n) := by
  induction n with
  | zero =>
    rw [b.state_zero]
    exact .init
  | succ n ih =>
    rcases b.next n with ⟨-, hstate⟩ | ⟨a, -, hstep⟩
    · rw [hstate]
      exact ih
    · exact .tail ih trivial hstep

theorem Behaviour.ensures {b : Behaviour step s₀} {group : α → Prop} {P Q : σ → Prop}
    (hfair : b.WeaklyFair group)
    (henabled : ∀ s, Reachable step Unrestricted s₀ s → P s → Enabled step group s)
    (hstep : ∀ s a s', Reachable step Unrestricted s₀ s → P s → step s a = some s' →
      Q s' ∨ (P s' ∧ ¬ group a))
    {n : Nat} (hn : P (b.state n)) : ∃ m, n ≤ m ∧ Q (b.state m) := by
  by_contra hnever
  have hnot : ∀ m, n ≤ m → ¬ Q (b.state m) := fun m hm hQ => hnever ⟨m, hm, hQ⟩
  have hstays : ∀ m, n ≤ m → P (b.state m) := by
    intro m hm
    induction hm with
    | refl => exact hn
    | @step m hm ih =>
      rcases b.next m with ⟨-, hstate⟩ | ⟨a, -, hs⟩
      · rw [hstate]
        exact ih
      · rcases hstep _ a _ (b.reachable m) ih hs with hQ | ⟨hP, -⟩
        · exact absurd hQ (hnot _ (Nat.le_succ_of_le hm))
        · exact hP
  obtain ⟨m, hm, a, ha, hgroup⟩ :=
    hfair n fun m hm => henabled _ (b.reachable m) (hstays m hm)
  rcases b.next m with ⟨hnone, -⟩ | ⟨a', ha', hs⟩
  · rw [hnone] at ha
    cases ha
  · obtain rfl : a' = a := Option.some.inj (ha'.symm.trans ha)
    rcases hstep _ a' _ (b.reachable m) (hstays m hm) hs with hQ | ⟨-, hother⟩
    · exact hnot _ (Nat.le_succ_of_le hm) hQ
    · exact hother hgroup

/-- **The rank rule**: from wherever `P` holds, `Q` comes or less is left to do. -/
theorem Behaviour.eventually_of_rank {b : Behaviour step s₀} {P Q : σ → Prop} (rank : σ → Nat)
    (hrank : ∀ n, P (b.state n) → ∃ m, n ≤ m
      ∧ (Q (b.state m) ∨ P (b.state m) ∧ rank (b.state m) < rank (b.state n)))
    {n : Nat} (hn : P (b.state n)) : ∃ m, n ≤ m ∧ Q (b.state m) := by
  induction hr : rank (b.state n) using Nat.strongRecOn generalizing n with
  | ind r ih =>
    obtain ⟨m, hm, hQ | ⟨hP, hlt⟩⟩ := hrank n hn
    · exact ⟨m, hm, hQ⟩
    · obtain ⟨m', hm', hQ⟩ := ih _ (hr ▸ hlt) hP rfl
      exact ⟨m', Nat.le_trans hm hm', hQ⟩

/-! ### A run that stops -/

theorem run_take_succ {acts : List α} {t : σ} (hrun : run step Unrestricted s₀ acts = some t)
    (n : Nat) : ∃ s s', run step Unrestricted s₀ (acts.take n) = some s
      ∧ run step Unrestricted s₀ (acts.take (n + 1)) = some s'
      ∧ (acts[n]?).elim (some s) (step s) = some s' := by
  induction acts generalizing s₀ n with
  | nil =>
    rw [take_nil, take_nil]
    exact ⟨t, t, hrun, hrun, rfl⟩
  | cons a acts ih =>
    rw [run_unrestricted_cons] at hrun
    obtain ⟨s₁, hs₁, hrun⟩ := Option.bind_eq_some_iff.mp hrun
    cases n with
    | zero =>
      refine ⟨s₀, s₁, rfl, ?_, hs₁⟩
      rw [take_succ_cons, take_zero, run_unrestricted_cons, hs₁]
      rfl
    | succ n =>
      obtain ⟨s, s', hs, hs', hnext⟩ := ih hrun n
      refine ⟨s, s', ?_, ?_, hnext⟩
      · rw [take_succ_cons, run_unrestricted_cons, hs₁]
        exact hs
      · rw [take_succ_cons, run_unrestricted_cons, hs₁]
        exact hs'

def Behaviour.ofRun {acts : List α} {t : σ} (hrun : run step Unrestricted s₀ acts = some t) :
    Behaviour step s₀ where
  state := fun n => (run step Unrestricted s₀ (acts.take n)).getD s₀
  act := fun n => acts[n]?
  state_zero := rfl
  state_succ := by
    intro n
    obtain ⟨s, s', hs, hs', hnext⟩ := run_take_succ hrun n
    rw [hs, hs']
    exact hnext

theorem Behaviour.weaklyFair_ofRun {acts : List α} {t : σ}
    (hrun : run step Unrestricted s₀ acts = some t) {group : α → Prop}
    (hdone : ¬ Enabled step group t) : (Behaviour.ofRun hrun).WeaklyFair group := by
  intro n henabled
  refine absurd (henabled (n + acts.length) (Nat.le_add_right ..)) ?_
  have hlast : (Behaviour.ofRun hrun).state (n + acts.length) = t := by
    show (run step Unrestricted s₀ (acts.take (n + acts.length))).getD s₀ = t
    rw [take_of_length_le (Nat.le_add_left ..), hrun]
    rfl
  rw [hlast]
  exact hdone

end Lib.Machine
