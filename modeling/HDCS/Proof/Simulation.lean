import HDCS.Proof.HandOver
import HDCS.Proof.Restart

/-!
# The core runs the serial machine

Every step of the core is a step of the serial machine or none at all
(`serialAct`), so **every run of the core is a run of the serial machine**
(`HandOver.reachable`), and what was proved of the one holds of the other.

The per-block order is then read off the relation (`SerialExecution`): the
operations of a block are sent one chain after the other, in the order `map_block`
accepted the chains, each once and by the one thread that is at the next of them,
and `in_process` and `block_ops_end` say where the block stands.
-/

namespace HDCS.HDCSCore

variable {n bs : Nat} {P : Policy n bs}

def serialAct (f : HDCSCore P) : Act → Option (Serial.Act bs)
  | .scan scratch =>
    match f.unscanned with
    | [] => none
    | req :: _ =>
      if P.inDiscardProcess f.pol req.block then none else some (.accept req scratch)
  | .work i =>
    match f.tasks[i]? with
    | some (.send p) =>
      if (f.opAt p).isSome then some (.send (f.blockOf p)) else some (.finish (f.blockOf p))
    | _ => none
  | .fail i r =>
    match f.tasks[i]? with
    | some (.send p) => some (.fail (f.blockOf p) r)
    | _ => none
  | _ => none

/-- No store call fails. -/
def NoFailure (_ : HDCSCore P) : Act → Prop
  | .fail _ _ => False
  | _ => True

instance (f : HDCSCore P) (a : Act) : Decidable (NoFailure f a) :=
  match a with
  | .fail _ _ => inferInstanceAs (Decidable False)
  | .submit _ | .process | .queueIo _ | .scan _ | .scanEnd | .work _ =>
    inferInstanceAs (Decidable True)

end HDCS.HDCSCore

namespace HDCS.Proof

open Lib HDCSCore CachePolicy Lib.Machine

variable {n bs : Nat} {P : Policy n bs}

/-! ## Runs -/

theorem handOver_start (pol : P.State) :
    HandOver (HDCSCore.start pol).toWorkers (Serial.start pol) where
  pol := rfl
  accepted := fun _ => rfl
  served := fun _ => rfl
  fresh := fun _ _ hk => absurd hk (by simp [HDCSCore.start, Workers.start])
  nodup := fun _ => List.nodup_nil
  block := fun _ _ hk => absurd hk (by simp [HDCSCore.start, Workers.start])
  inner := fun _ _ hk => absurd hk (by simp [HDCSCore.start, Workers.start])
  finished := fun _ _ hm => absurd hm (by simp [HDCSCore.start, Workers.start])
  found := fun _ hm => absurd hm (by simp [HDCSCore.start, Workers.start])
  notified := fun _ hc => absurd hc (by simp [HDCSCore.start, Workers.start])
  owed := fun _ _ hm => absurd hm (by simp [HDCSCore.start, Workers.start])
  stage := fun _ => .drained ⟨rfl, rfl, rfl, rfl⟩

theorem HandOver.step {hbs : 0 < bs} {f f' : HDCSCore P} {a : HDCSCore.Act} {s : Serial P}
    (h : HandOver f.toWorkers s) (hs : f.step hbs a = some f') :
    (f.serialAct a = none ∧ HandOver f'.toWorkers s)
    ∨ ∃ a' s', f.serialAct a = some a' ∧ s.step a' = some s' ∧ HandOver f'.toWorkers s' := by
  cases step_moves hs with
  | submit r | process r q hq hsc | queueIo r hsc | scanEnd hsc hu => exact Or.inl ⟨rfl, h⟩
  | skip scratch req rest hsc hu hd => exact Or.inl ⟨by simp [serialAct, hu, hd], h⟩
  | map scratch req rest hsc hu hd =>
    refine Or.inr ⟨_, _, ?_, Serial.step_accept (by rw [h.pol]; exact hd), h.mapBlock⟩
    simp [serialAct, hu, hd]
  | send i p op ht hop ha =>
    obtain ⟨s', hs', h'⟩ := h.sendOp ht hop ha
    exact Or.inr ⟨_, s', by simp [serialAct, ht, hop], hs', h'⟩
  | locked i p ht hop =>
    obtain ⟨s', hs', h'⟩ := h.lockedSection ht hop
    exact Or.inr ⟨_, s', by simp [serialAct, ht, hop], hs', h'⟩
  | notify i p callNext ht => exact Or.inl ⟨by simp [serialAct, ht], h.notify ht⟩
  | fail i r p op ht hop hf hr =>
    obtain ⟨s', hs', h'⟩ := h.failOp ht hop hf hr
    exact Or.inr ⟨_, s', by simp [serialAct, ht], hs', h'⟩

/-- **Every run of the core is a run of the serial machine.** -/
theorem HandOver.reachable {hbs : 0 < bs} {ok : HDCSCore P → HDCSCore.Act → Prop}
    {ok' : Serial P → Serial.Act bs → Prop}
    (hok : ∀ f s a a', HandOver f.toWorkers s → ok f a → f.serialAct a = some a' → ok' s a')
    {f₀ f : HDCSCore P} {s₀ : Serial P} (h₀ : HandOver f₀.toWorkers s₀)
    (hr : Reachable (HDCSCore.step hbs) ok f₀ f) :
    ∃ s, HandOver f.toWorkers s ∧ Reachable Serial.step ok' s₀ s := by
  refine hr.simulates (R := fun f s => HandOver f.toWorkers s) h₀ ?_
  intro f a f' s h ha hs
  rcases h.step hs with ⟨_, h'⟩ | ⟨a', s', ha', hs', h'⟩
  · exact ⟨s, h', .init⟩
  · exact ⟨s', h', .tail .init (hok f s a a' h ha ha') hs'⟩

/-! ## Order -/

/-- The chains of a block are executed one after the other. -/
structure SerialExecution (w : Workers P) (b : Nat) : Prop where
  /-- The chains are those of the requests passed to `map_block`, in that order. -/
  served : (w.accepted b).map w.reqOf = w.mapped b
  /-- No operation occurs twice. -/
  once : ((w.accepted b).flatMap w.ptrs).Nodup
  /-- What has been sent is chain after chain, each from its first operation on. -/
  order : w.sent b <+: (w.accepted b).flatMap w.ptrs
  /-- One thread is at the next operation, and no other thread is at any. -/
  next : w.tokens b = (((w.accepted b).flatMap w.ptrs).drop (w.sent b).length).head?.toList
  inProcess : w.inProcess b = true ↔ ∃ k ∈ w.accepted b, w.completeOp k ∉ w.sent b
  blockOpsEnd : w.inProcess b = true → w.blockOpsEnd b = (w.accepted b).getLast?.map w.completeOp

theorem Drained.serialExecution {w : Workers P} {b : Nat} (h : Drained w b)
    (hs : (w.accepted b).map w.reqOf = w.mapped b) (hnd : (w.accepted b).Nodup) :
    SerialExecution w b where
  served := hs
  once := Workers.nodup_flatMap_ptrs hnd
  order := ⟨[], (List.append_nil _).trans h.sent⟩
  next := by rw [h.tokens, h.sent, List.drop_length]; rfl
  inProcess := by
    rw [h.inProcess, h.sent]
    refine ⟨nofun, ?_⟩
    rintro ⟨k, hk, hnot⟩
    exact absurd (List.mem_flatMap.mpr ⟨k, hk, Workers.completeOp_mem_ptrs⟩) hnot
  blockOpsEnd := fun hin => by rw [h.inProcess] at hin; cases hin

theorem AtOp.serialExecution {w : Workers P} {b : Nat} {done : List Nat} {k : Nat}
    {ks : List Nat} {i : Nat} (h : AtOp w b done k ks i false)
    (hs : (w.accepted b).map w.reqOf = w.mapped b) (hnd : (w.accepted b).Nodup) :
    SerialExecution w b := by
  have hall : (w.accepted b).flatMap w.ptrs
      = w.sent b ++ ((w.ptrs k).drop i ++ ks.flatMap w.ptrs) := by
    rw [h.accepted, List.flatMap_append, List.flatMap_cons, h.sent, List.append_assoc,
      ← List.append_assoc ((w.ptrs k).take i), List.take_append_drop]
  have hhead : ((w.ptrs k).drop i ++ ks.flatMap w.ptrs).head? = some ⟨k, i⟩ := by
    rw [List.head?_append, List.head?_drop, Workers.ptrs_getElem? h.bound]
    rfl
  exact
    { served := hs
      once := Workers.nodup_flatMap_ptrs hnd
      order := ⟨_, hall.symm⟩
      next := by rw [hall, List.drop_left, hhead, h.tokens]; rfl
      inProcess := ⟨fun _ => ⟨k, h.mem, h.completeOp_not_mem hnd⟩, fun _ => h.inProcess⟩
      blockOpsEnd := fun _ => by
        rw [h.blockOpsEnd, h.accepted, List.getLast?_append, List.getLast?_cons,
          List.getLastD_eq_getLast?]
        rfl }

theorem errorFree_of_noFailure {f : HDCSCore P} {a : HDCSCore.Act} {a' : Serial.Act bs}
    {s : Serial P} (h : NoFailure f a) (ha : f.serialAct a = some a') : ErrorFree s a' := by
  cases a with
  | fail i r => exact h.elim
  | scan scratch =>
    rw [serialAct] at ha
    split at ha
    · cases ha
    · split at ha
      · cases ha
      · cases ha; trivial
  | work i =>
    rw [serialAct] at ha
    split at ha
    · split at ha
      · cases ha; trivial
      · cases ha; trivial
    · cases ha
  | _ => cases ha

theorem stage_of_noFailure {hbs : 0 < bs} {pol : P.State} {f : HDCSCore P}
    (hr : Reachable (HDCSCore.step hbs) NoFailure (HDCSCore.start pol) f) :
    ∃ s, HandOver f.toWorkers s
      ∧ ∀ b, Drained f.toWorkers b ∨ ∃ done k ks i, AtOp f.toWorkers b done k ks i false := by
  obtain ⟨s, h, hs⟩ : ∃ s, HandOver f.toWorkers s
      ∧ Reachable Serial.step ErrorFree (Serial.start pol) s :=
    HandOver.reachable (fun _ _ _ _ _ => errorFree_of_noFailure) (handOver_start pol) hr
  refine ⟨s, h, fun b => ?_⟩
  have halive := Serial.alive_reachable (fun _ _ hc => absurd hc (by simp [Serial.start])) hs b
  have hst := h.stage b
  generalize s.queue b = q at hst halive
  cases hst with
  | drained hd => exact Or.inl hd
  | atOp done k ks i failed hat =>
    have hf : failed = false := halive _ List.mem_cons_self
    subst hf
    exact Or.inr ⟨done, k, ks, i, hat⟩

/-- **The chains of a block are executed one after the other, in every run without failures.** -/
theorem serialExecution_reachable (P : Policy n bs) (hbs : 0 < bs) (pol : P.State)
    (f : HDCSCore P)
    (hr : Reachable (HDCSCore.step hbs) NoFailure (HDCSCore.start pol) f) (b : Nat) :
    SerialExecution f.toWorkers b := by
  obtain ⟨s, h, hstage⟩ := stage_of_noFailure hr
  rcases hstage b with hd | ⟨done, k, ks, i, hat⟩
  · exact hd.serialExecution (h.served b) (h.nodup b)
  · exact hat.serialExecution (h.served b) (h.nodup b)

theorem inProcess_of_no_tasks {hbs : 0 < bs} {pol : P.State} {f : HDCSCore P}
    (hr : Reachable (HDCSCore.step hbs) NoFailure (HDCSCore.start pol) f)
    (ht : f.tasks = []) (b : Nat) : f.inProcess b = false := by
  obtain ⟨_, _, hstage⟩ := stage_of_noFailure hr
  rcases hstage b with hd | ⟨done, k, ks, i, hat⟩
  · exact hd.inProcess
  · have htok := hat.tokens
    unfold Workers.tokens at htok
    rw [ht] at htok
    cases htok

/-- The core over a small cache. -/
abbrev smallCore (slots : Nat) (mode : CacheMode) : HDCSCore (policy (smallCache slots mode)) :=
  HDCSCore.start (P := policy (smallCache slots mode))
    (fresh (smallCache slots mode) (fun _ => 0) (fun _ => 0))

def blockRange (ioType : IoType) (b : Nat) : Request := ⟨ioType, fun _ => 7, 2 * b, 2⟩

/-- A READ is mapped while a WRITE of its block is at its second operation. -/
theorem serialExecution_appended :
    ∃ f : HDCSCore (policy (smallCache 0 .writeBack)),
      SerialExecution f.toWorkers 0 ∧ f.inProcess 0 = true ∧ f.accepted 0 = [0, 1]
        ∧ f.sent 0 = [⟨0, 0⟩] := by
  have hrun : (run (HDCSCore.step (by decide)) NoFailure (smallCore 0 .writeBack)
      [.submit (blockRange .write 0), .process, .scan (fun _ => 0), .scanEnd, .work 0,
        .queueIo (blockRange .read 0), .scan (fun _ => 0), .scanEnd]).map
      (fun f => decide (f.inProcess 0 = true ∧ f.accepted 0 = [0, 1] ∧ f.sent 0 = [⟨0, 0⟩]))
      = some true := by decide +kernel
  obtain ⟨f, hr, hp⟩ := Reachable.of_run_decide hrun
  exact ⟨f, serialExecution_reachable _ _ _ f hr 0, hp⟩

end HDCS.Proof
