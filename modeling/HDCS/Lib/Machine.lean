import Mathlib.Data.List.Induction

/-!
# Machines with partial steps

A machine is a function `step : σ → α → Option σ`: an action either moves the
state or is not possible there. `Reachable step ok s₀` is what a run from `s₀`
can get to when every action it takes also meets `ok` in the state it is taken
in; restricting a run is how an assumption about the environment is stated, and
an `Unrestricted` run is one without.

A few rules carry everything that is proved about runs: an invariant of one step
is an invariant of every run (`Reachable.invariant`), a step-by-step simulation
is a simulation of runs (`Reachable.simulates`), what can always be brought nearer
can be reached (`Reachable.exists_of_decreasing`), what every step leaves less of bounds the run
(`run_length_le`), and a list of actions that
executes is a run (`Reachable.of_run`), which is how a concrete run becomes a
witness or a counterexample. A loop over a list is a run of a fixed length, and
has the same rule (`foldl_invariant`, `foldlM_invariant`).
-/

namespace Lib.Machine

variable {σ α : Type}

/-- What a run from `s₀` whose actions all meet `ok` can reach. -/
inductive Reachable (step : σ → α → Option σ) (ok : σ → α → Prop) (s₀ : σ) : σ → Prop where
  | init : Reachable step ok s₀ s₀
  | tail {s s' : σ} {a : α} :
      Reachable step ok s₀ s → ok s a → step s a = some s' → Reachable step ok s₀ s'

/-- Any action that is possible. -/
def Unrestricted : σ → α → Prop := fun _ _ => True

instance : ∀ (s : σ) (a : α), Decidable (Unrestricted s a) := fun _ _ => .isTrue trivial

variable {step : σ → α → Option σ} {ok : σ → α → Prop} {s₀ : σ}

theorem Reachable.unrestricted {s : σ} (h : Reachable step ok s₀ s) :
    Reachable step Unrestricted s₀ s := by
  induction h with
  | init => exact .init
  | tail _ _ hs ih => exact .tail ih trivial hs

/-- **The invariant rule.** -/
theorem Reachable.invariant {I : σ → Prop} (hinit : I s₀)
    (hstep : ∀ s a s', I s → ok s a → step s a = some s' → I s')
    {s : σ} (h : Reachable step ok s₀ s) : I s := by
  induction h with
  | init => exact hinit
  | tail _ hok hs ih => exact hstep _ _ _ ih hok hs

theorem Reachable.mono {ok' : σ → α → Prop} (himp : ∀ s a, ok s a → ok' s a)
    {s : σ} (h : Reachable step ok s₀ s) : Reachable step ok' s₀ s := by
  induction h with
  | init => exact .init
  | tail _ hok hs ih => exact .tail ih (himp _ _ hok) hs

theorem Reachable.trans {s t : σ} (h : Reachable step ok s₀ s) (h' : Reachable step ok s t) :
    Reachable step ok s₀ t := by
  induction h' with
  | init => exact h
  | tail _ hok hs ih => exact .tail ih hok hs

/-- **The simulation rule**: each step of one machine is a run of the other. -/
theorem Reachable.simulates {τ β : Type} {step' : τ → β → Option τ} {ok' : τ → β → Prop}
    {t₀ : τ} {R : σ → τ → Prop} (hinit : R s₀ t₀)
    (hstep : ∀ s a s' t, R s t → ok s a → step s a = some s' →
      ∃ t', R s' t' ∧ Reachable step' ok' t t')
    {s : σ} (h : Reachable step ok s₀ s) : ∃ t, R s t ∧ Reachable step' ok' t₀ t := by
  induction h with
  | init => exact ⟨t₀, hinit, .init⟩
  | tail _ hok hs ih =>
    obtain ⟨t, hR, ht⟩ := ih
    obtain ⟨t', hR', ht'⟩ := hstep _ _ _ t hR hok hs
    exact ⟨t', hR', ht.trans ht'⟩

theorem Reachable.exists_of_decreasing {I P : σ → Prop} (rank : σ → Nat)
    (hstep : ∀ s, I s → ¬ P s → ∃ t, Reachable step ok s t ∧ I t ∧ rank t < rank s)
    {s : σ} (h : I s) : ∃ t, Reachable step ok s t ∧ I t ∧ P t := by
  induction hn : rank s using Nat.strongRecOn generalizing s with
  | ind n ih =>
    by_cases hP : P s
    · exact ⟨s, .init, h, hP⟩
    · obtain ⟨t, hst, hI, hlt⟩ := hstep s h hP
      obtain ⟨u, htu, hu⟩ := ih (rank t) (hn ▸ hlt) hI rfl
      exact ⟨u, hst.trans htu, hu⟩

/-- Execute a list of actions, each of which has to meet `ok` where it is taken. -/
def run (step : σ → α → Option σ) (ok : σ → α → Prop) [∀ s a, Decidable (ok s a)] :
    σ → List α → Option σ
  | s, [] => some s
  | s, a :: as => if ok s a then (step s a).bind (run step ok · as) else none

theorem run_unrestricted_cons (s : σ) (a : α) (as : List α) :
    run step Unrestricted s (a :: as) = (step s a).bind (run step Unrestricted · as) := rfl

def Along (step : σ → α → Option σ) (ok : σ → α → Prop) : σ → List α → Prop
  | _, [] => True
  | s, a :: as => ok s a ∧ ∀ s' ∈ step s a, Along step ok s' as

instance Along.decidable [∀ s a, Decidable (ok s a)] :
    ∀ (s : σ) (as : List α), Decidable (Along step ok s as)
  | _, [] => inferInstanceAs (Decidable True)
  | s, a :: as =>
    have : ∀ s', Decidable (Along step ok s' as) := fun s' => Along.decidable s' as
    inferInstanceAs (Decidable (ok s a ∧ ∀ s' ∈ step s a, Along step ok s' as))

theorem Reachable.of_run [∀ s a, Decidable (ok s a)] :
    ∀ {as : List α} {s t : σ}, Reachable step ok s₀ s → run step ok s as = some t →
      Reachable step ok s₀ t
  | [], s, t, h, hr => by
    rw [run] at hr
    cases hr; exact h
  | a :: as, s, t, h, hr => by
    rw [run] at hr
    split at hr
    · rename_i ha
      cases hq : step s a with
      | none => rw [hq] at hr; simp at hr
      | some s' =>
        rw [hq] at hr
        exact Reachable.of_run (.tail h ha hq) hr
    · cases hr

theorem Reachable.of_run_test [∀ s a, Decidable (ok s a)] {as : List α} {p : σ → Bool}
    (h : (run step ok s₀ as).map p = some true) : ∃ s, Reachable step ok s₀ s ∧ p s = true := by
  cases hr : run step ok s₀ as with
  | none => rw [hr] at h; simp at h
  | some s =>
    rw [hr] at h
    exact ⟨s, Reachable.of_run .init hr, Option.some.inj h⟩

theorem Reachable.of_run_decide [∀ s a, Decidable (ok s a)] {as : List α} {P : σ → Prop}
    {_ : DecidablePred P} (h : (run step ok s₀ as).map (fun s => decide (P s)) = some true) :
    ∃ s, Reachable step ok s₀ s ∧ P s := by
  obtain ⟨s, hs, htest⟩ := Reachable.of_run_test h
  exact ⟨s, hs, of_decide_eq_true htest⟩

/-- **The measure rule**: a run in which every action leaves less to do is no longer than that. -/
theorem run_length_le {I : σ → Prop} {P : α → Prop} (rank : σ → Nat)
    (hstep : ∀ s a s', I s → P a → step s a = some s' → I s' ∧ rank s' < rank s) :
    ∀ {as : List α} {s t : σ}, I s → (∀ a ∈ as, P a) → run step Unrestricted s as = some t →
      as.length ≤ rank s
  | [], _, _, _, _, _ => Nat.zero_le _
  | a :: as, s, t, h, hP, hr => by
    rw [run_unrestricted_cons] at hr
    obtain ⟨s', hs', hr⟩ := Option.bind_eq_some_iff.mp hr
    obtain ⟨h', hlt⟩ := hstep s a s' h (hP a List.mem_cons_self) hs'
    have hle := run_length_le rank hstep h' (fun b hb => hP b (List.mem_cons_of_mem a hb)) hr
    rw [List.length_cons]
    omega

theorem foldl_invariant {β : Type} {f : σ → β → σ} {I : List β → σ → Prop} {s : σ}
    (hinit : I [] s) (hstep : ∀ done x s, I done s → I (done ++ [x]) (f s x)) :
    ∀ l : List β, I l (l.foldl f s) := by
  intro l
  induction l using List.reverseRecOn with
  | nil => exact hinit
  | append_singleton l x ih =>
    rw [List.foldl_append]
    exact hstep l x _ ih

theorem foldlM_invariant {β : Type} {f : σ → β → Option σ} {I : σ → Prop}
    (hstep : ∀ s x t, I s → f s x = some t → I t) :
    ∀ {l : List β} {s t : σ}, I s → l.foldlM f s = some t → I t
  | [], s, t, hs, hl => Option.some.inj hl ▸ hs
  | x :: l, s, t, hs, hl => by
    rw [List.foldlM_cons] at hl
    obtain ⟨u, hu, hl⟩ := Option.bind_eq_some_iff.mp hl
    exact foldlM_invariant hstep (hstep s x u hs hu) hl

end Lib.Machine
