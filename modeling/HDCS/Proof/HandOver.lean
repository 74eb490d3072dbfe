import HDCS.Proof.Links

/-!
# The hand-over between chains

A block's chains are run by whichever thread holds the next operation. The
mapper appends a chain by writing the `block_op_next` of the last
`BlockRequestComplete`; the worker that reaches a `BlockRequestComplete` looks at
that pointer, and leaves the block idle if there is nothing behind it. Both
happen under the block's mutex, and that is what makes the pair correct: a chain
is appended either before the worker looks, and then it is found, or after the
block was left idle, and then the mapper starts it itself.

`HandOver` says what this amounts to. For every block, the chains not through yet
are the queue of the machine in `HDCS/Core/Serial.lean`; they are linked in the order
they were accepted in, and one task of one thread is at the next operation, all
other threads being elsewhere. A failed operation takes that task away and puts
nothing in its place, so `HandOver` holds of runs with failures as well, where
`Serial` has the failed chain at the head of the queue for good.

There is one step lemma for each thing a thread can do. Those of a thread at an
operation share their frame: `HandOver.advance` leaves only the block of that
operation to be looked at.
-/

namespace HDCS.Proof

open Lib Workers Function List

variable {n bs : Nat} {P : Policy n bs}

/-! ## The relation -/

structure Drained (w : Workers P) (b : Nat) : Prop where
  inProcess : w.inProcess b = false
  blockOpsEnd : w.blockOpsEnd b = none
  sent : w.sent b = (w.accepted b).flatMap w.ptrs
  tokens : w.tokens b = []

structure AtOp (w : Workers P) (b : Nat) (done : List Nat) (k : Nat) (ks : List Nat) (i : Nat)
    (failed : Bool) : Prop where
  accepted : w.accepted b = done ++ k :: ks
  bound : i ≤ (w.chains k).ops.length
  inProcess : w.inProcess b = true
  blockOpsEnd : w.blockOpsEnd b = some (w.completeOp (ks.getLastD k))
  sent : w.sent b = done.flatMap w.ptrs ++ (w.ptrs k).take i
  linked : w.Linked k ks
  tokens : w.tokens b = if failed then [] else [⟨k, i⟩]

inductive Stage (w : Workers P) (b : Nat) : List (Chain n bs) → Prop where
  | drained : Drained w b → Stage w b []
  | atOp (done : List Nat) (k : Nat) (ks : List Nat) (i : Nat) (failed : Bool) :
      AtOp w b done k ks i failed →
      Stage w b (w.chainAt k i failed :: ks.map (w.chainAt · 0 false))

structure HandOver (w : Workers P) (s : Serial P) : Prop where
  pol : s.pol = w.pol
  accepted : ∀ b, s.accepted b = w.mapped b
  served : ∀ b, (w.accepted b).map w.reqOf = w.mapped b
  fresh : ∀ b, ∀ k ∈ w.accepted b, k < w.nextChain
  nodup : ∀ b, (w.accepted b).Nodup
  block : ∀ b, ∀ k ∈ w.accepted b, (w.reqOf k).block = b
  /-- The pointers between the operations of a chain are as they were built. -/
  inner : ∀ b, ∀ k ∈ w.accepted b, ∀ i < (w.chains k).ops.length,
    w.blockOpNext ⟨k, i⟩ = some ⟨k, i + 1⟩
  /-- What is past its locked section is the end of a chain, and the chain is through. -/
  finished : ∀ p callNext, Task.completed p callNext ∈ w.tasks →
    p.chain ∈ w.accepted (w.blockOf p) ∧ p = w.completeOp p.chain ∧ p ∈ w.sent (w.blockOf p)
  /-- A thread that has found a next chain still finds it when it gets there. -/
  found : ∀ p, Task.completed p true ∈ w.tasks → ∃ q, w.blockOpNext p = some q
  notified : ∀ c ∈ w.notified, c ∈ s.completed c.req.block
  /-- A completion that is still to be reported is one the serial machine has made. -/
  owed : ∀ p callNext, Task.completed p callNext ∈ w.tasks →
    w.completion p.chain 0 ∈ s.completed (w.blockOf p)
  stage : ∀ b, Stage w b (s.queue b)

structure Kept (w w' : Workers P) (b : Nat) : Prop where
  accepted : w'.accepted b = w.accepted b
  sent : w'.sent b = w.sent b
  inProcess : w'.inProcess b = w.inProcess b
  blockOpsEnd : w'.blockOpsEnd b = w.blockOpsEnd b
  tokens : w'.tokens b = w.tokens b
  chains : ∀ k ∈ w.accepted b, w'.chains k = w.chains k
  bufs : ∀ k ∈ w.accepted b, w'.bufs k = w.bufs k
  next : ∀ k ∈ w.accepted b, w'.blockOpNext (w.completeOp k) = w.blockOpNext (w.completeOp k)

theorem Stage.frame {w w' : Workers P} {b : Nat} {q : List (Chain n bs)} (h : Stage w b q)
    (hk : Kept w w' b) : Stage w' b q := by
  cases h with
  | drained h =>
    refine .drained ⟨hk.inProcess.trans h.inProcess, hk.blockOpsEnd.trans h.blockOpsEnd, ?_,
      hk.tokens.trans h.tokens⟩
    rw [hk.sent, hk.accepted, flatMap_ptrs_congr hk.chains]
    exact h.sent
  | atOp done k ks i failed h =>
    have hmem : ∀ j ∈ k :: ks, j ∈ w.accepted b := by
      intro j hj
      rw [h.accepted]; exact mem_append_right _ hj
    have hdone : ∀ j ∈ done, w'.chains j = w.chains j := by
      intro j hj
      exact hk.chains j (by rw [h.accepted]; exact mem_append_left _ hj)
    have hkk := hk.chains k (hmem k mem_cons_self)
    have hq : w.chainAt k i failed :: ks.map (w.chainAt · 0 false)
        = w'.chainAt k i failed :: ks.map (w'.chainAt · 0 false) := by
      congr 1
      · exact (chainAt_congr hkk (hk.bufs k (hmem k mem_cons_self))).symm
      · refine map_congr_left fun j hj => ?_
        have hj' := hmem j (mem_cons_of_mem _ hj)
        exact (chainAt_congr (hk.chains j hj') (hk.bufs j hj')).symm
    rw [hq]
    refine .atOp done k ks i failed ⟨hk.accepted.trans h.accepted, ?_,
      hk.inProcess.trans h.inProcess, ?_, ?_, ?_, hk.tokens.trans h.tokens⟩
    · rw [hkk]; exact h.bound
    · rw [hk.blockOpsEnd, h.blockOpsEnd, completeOp_congr (hk.chains _ (hmem _ getLastD_mem_cons))]
    · rw [hk.sent, h.sent, flatMap_ptrs_congr hdone, ptrs_congr hkk]
    · exact h.linked.congr (fun j hj => hk.chains j (hmem j hj)) fun j hj => hk.next j (hmem j hj)

/-! ## The chain at work -/

section AtOp

variable {w : Workers P} {s : Serial P} {b k i : Nat} {done ks : List Nat} {failed : Bool}

theorem AtOp.mem (h : AtOp w b done k ks i failed) : k ∈ w.accepted b := by
  rw [h.accepted]; exact mem_append_right _ mem_cons_self

theorem AtOp.not_mem (h : AtOp w b done k ks i failed) (hnd : (w.accepted b).Nodup) :
    k ∉ done ∧ k ∉ ks := by
  rw [h.accepted] at hnd
  obtain ⟨_, hk, hdis⟩ := nodup_append.mp hnd
  exact ⟨fun hd => hdis k hd k mem_cons_self rfl, (nodup_cons.mp hk).1⟩

theorem AtOp.completeOp_not_mem (h : AtOp w b done k ks i failed) (hnd : (w.accepted b).Nodup) :
    w.completeOp k ∉ w.sent b := by
  rw [h.sent]
  intro hm
  rcases mem_append.mp hm with hm | hm
  · obtain ⟨j, hj, hp⟩ := mem_flatMap.mp hm
    have hkj : k = j := (mem_ptrs.mp hp).1
    exact (h.not_mem hnd).1 (hkj ▸ hj)
  · have hlt : (w.chains k).ops.length < i := (mem_ptrs_take hm).2
    have := h.bound
    omega

theorem HandOver.atOp_of_token {p : Ptr} (h : HandOver w s) (hp : p ∈ w.tokens b) :
    ∃ done ks, AtOp w b done p.chain ks p.index false
      ∧ s.queue b = w.chainAt p.chain p.index false :: ks.map (w.chainAt · 0 false) := by
  have hst := h.stage b
  generalize s.queue b = q at hst
  cases hst with
  | drained hd => rw [hd.tokens] at hp; cases hp
  | atOp done k ks j failed hat =>
    rw [hat.tokens] at hp
    cases failed with
    | true => cases hp
    | false =>
      have hpe : p = ⟨k, j⟩ := by simpa using hp
      subst hpe
      exact ⟨done, ks, hat, rfl⟩

theorem HandOver.atOp {p : Ptr} (h : HandOver w s) (ht : w.tasks[i]? = some (.send p)) :
    ∃ done ks, AtOp w (w.blockOf p) done p.chain ks p.index false
      ∧ s.queue (w.blockOf p)
        = w.chainAt p.chain p.index false :: ks.map (w.chainAt · 0 false) :=
  h.atOp_of_token (mem_tokens_of_send ht)

theorem HandOver.ne_of_block {b' k' : Nat} (h : HandOver w s) (hk : k ∈ w.accepted b)
    (hk' : k' ∈ w.accepted b') (hne : b' ≠ b) : k' ≠ k := by
  rintro rfl
  exact hne ((h.block b' _ hk').symm.trans (h.block b _ hk))

theorem HandOver.ne_of_finished {p : Ptr} {callNext : Bool} (h : HandOver w s)
    (hat : AtOp w b done k ks i failed) (hf : Task.completed p callNext ∈ w.tasks) :
    p.chain ≠ k := by
  rintro rfl
  obtain ⟨hmem, hpe, hsent⟩ := h.finished p callNext hf
  have hb : w.blockOf p = b := h.block b _ hat.mem
  rw [hb] at hsent
  exact hat.completeOp_not_mem (h.nodup b) (hpe ▸ hsent)

end AtOp

/-! ## What the threads do -/

structure Advance (w w' : Workers P) (i : Nat) (p : Ptr) (cont : List Task) : Prop where
  mapped : w'.mapped = w.mapped
  accepted : w'.accepted = w.accepted
  nextChain : w'.nextChain = w.nextChain
  chains : w'.chains = w.chains
  blockOpNext : w'.blockOpNext = w.blockOpNext
  tasks : w'.tasks = w.continueAs i cont
  bufs : ∀ k, k ≠ p.chain → w'.bufs k = w.bufs k
  sent : ∀ b, b ≠ w.blockOf p → w'.sent b = w.sent b
  inProcess : ∀ b, b ≠ w.blockOf p → w'.inProcess b = w.inProcess b
  blockOpsEnd : ∀ b, b ≠ w.blockOf p → w'.blockOpsEnd b = w.blockOpsEnd b
  grows : w.sent (w.blockOf p) <+: w'.sent (w.blockOf p)
  /-- The thread stays with its block. -/
  stays : ∀ b, b ≠ w.blockOf p → cont.filterMap (w.token b) = []

structure MovesAt (s s' : Serial P) (b : Nat) : Prop where
  accepted : s'.accepted = s.accepted
  queue : ∀ b', b' ≠ b → s'.queue b' = s.queue b'
  completed : ∀ b' c, c ∈ s.completed b' → c ∈ s'.completed b'

theorem mem_update_append {α : Type} {f : Nat → List α} {b b' : Nat} {x : α} {l : List α}
    (h : x ∈ f b') : x ∈ update f b (f b ++ l) b' := by
  by_cases hb : b' = b
  · subst hb; rw [update_self]; exact mem_append_left _ h
  · rw [update_of_ne hb]; exact h

theorem MovesAt.fail {s : Serial P} {b : Nat} {r : Int} {c : Chain n bs}
    {cs : List (Chain n bs)} : MovesAt s (s.fail b r c cs) b :=
  ⟨rfl, fun _ hb => update_of_ne hb _ _, fun _ _ hc => mem_update_append hc⟩

theorem MovesAt.finish {s : Serial P} {b : Nat} {c : Chain n bs} {cs : List (Chain n bs)} :
    MovesAt s (s.finish b c cs) b :=
  ⟨rfl, fun _ hb => update_of_ne hb _ _, fun _ _ hc => mem_update_append hc⟩

section Threads

variable {w w' : Workers P} {s s' : Serial P} {i : Nat} {p : Ptr} {cont : List Task}

theorem blockOf_congr (h : w'.chains p.chain = w.chains p.chain) :
    w'.blockOf p = w.blockOf p := by
  unfold Workers.blockOf Workers.reqOf; rw [h]

theorem token_congr {b : Nat} {t : Task} (hc : w'.chains t.ptr.chain = w.chains t.ptr.chain)
    (hn : ∀ q, t = .completed q true → w'.blockOpNext q = w.blockOpNext q) :
    w'.token b t = w.token b t := by
  cases t with
  | send q => simp only [Workers.token, blockOf_congr (p := q) hc]
  | completed q callNext =>
    cases callNext with
    | false => rfl
    | true => simp only [Workers.token, blockOf_congr (p := q) hc, hn q rfl]

theorem token_send {b : Nat} (h : w.blockOf p = b) : w.token b (.send p) = some p := by
  simp [Workers.token, h]

theorem token_send_of_ne {b : Nat} (hne : b ≠ w.blockOf p) : w.token b (.send p) = none := by
  simp [Workers.token, Ne.symm hne]

theorem Advance.kept (ha : Advance w w' i p cont) (h : HandOver w s)
    (ht : w.tasks[i]? = some (.send p)) {b : Nat} (hb : b ≠ w.blockOf p) : Kept w w' b where
  accepted := by rw [ha.accepted]
  sent := ha.sent b hb
  inProcess := ha.inProcess b hb
  blockOpsEnd := ha.blockOpsEnd b hb
  tokens := by
    unfold Workers.tokens
    have htok : w'.token b = w.token b :=
      funext fun t => token_congr (by rw [ha.chains]) fun _ _ => by rw [ha.blockOpNext]
    rw [htok, ha.tasks]
    exact filterMap_continueAs_same ht (by rw [ha.stays b hb, token_send_of_ne hb]; rfl)
  chains := fun _ _ => by rw [ha.chains]
  bufs := fun k hk => by
    obtain ⟨_, _, hat, _⟩ := h.atOp ht
    exact ha.bufs k (h.ne_of_block hat.mem hk hb)
  next := fun _ _ => by rw [ha.blockOpNext]

theorem HandOver.advance (h : HandOver w s) (ht : w.tasks[i]? = some (.send p))
    (ha : Advance w w' i p cont) (hm : MovesAt s s' (w.blockOf p)) (hpol : s'.pol = w'.pol)
    (hcont : ∀ q callNext, Task.completed q callNext ∈ cont →
      q = p ∧ p = w.completeOp p.chain ∧ p ∈ w'.sent (w.blockOf p)
        ∧ w'.completion p.chain 0 ∈ s'.completed (w.blockOf p)
        ∧ (callNext = true → ∃ q', w.blockOpNext p = some q'))
    (hnot : ∀ c ∈ w'.notified, c ∈ s'.completed c.req.block)
    (hstage : Stage w' (w.blockOf p) (s'.queue (w.blockOf p))) : HandOver w' s' := by
  obtain ⟨done, ks, hat, _⟩ := h.atOp ht
  have hreq : w'.reqOf = w.reqOf := by unfold Workers.reqOf; rw [ha.chains]
  have hblock : w'.blockOf = w.blockOf :=
    funext fun q => blockOf_congr (congrFun ha.chains q.chain)
  have hsent : ∀ b q, q ∈ w.sent b → q ∈ w'.sent b := by
    intro b q hq
    by_cases hb : b = w.blockOf p
    · subst hb; exact ha.grows.subset hq
    · rw [ha.sent b hb]; exact hq
  have hmem : ∀ q callNext, Task.completed q callNext ∈ w'.tasks →
      Task.completed q callNext ∈ w.tasks ∨ Task.completed q callNext ∈ cont := by
    intro q callNext hq
    rw [ha.tasks] at hq; exact mem_continueAs hq
  exact
    { pol := hpol
      accepted := fun b => by rw [hm.accepted, ha.mapped]; exact h.accepted b
      served := fun b => by rw [ha.accepted, ha.mapped, hreq]; exact h.served b
      fresh := fun b => by rw [ha.accepted, ha.nextChain]; exact h.fresh b
      nodup := fun b => by rw [ha.accepted]; exact h.nodup b
      block := fun b => by rw [ha.accepted, hreq]; exact h.block b
      inner := fun b => by rw [ha.accepted, ha.chains, ha.blockOpNext]; exact h.inner b
      finished := by
        intro q callNext hq
        rw [hblock, ha.accepted, completeOp_congr (congrFun ha.chains q.chain)]
        rcases hmem q callNext hq with hq | hq
        · obtain ⟨h1, h2, h3⟩ := h.finished q callNext hq
          exact ⟨h1, h2, hsent _ q h3⟩
        · obtain ⟨rfl, h2, h3, _⟩ := hcont q callNext hq
          exact ⟨hat.mem, h2, h3⟩
      found := by
        intro q hq
        rw [ha.blockOpNext]
        rcases hmem q true hq with hq | hq
        · exact h.found q hq
        · obtain ⟨rfl, _, _, _, h5⟩ := hcont q true hq
          exact h5 rfl
      notified := hnot
      owed := by
        intro q callNext hq
        rw [hblock]
        rcases hmem q callNext hq with hq | hq
        · -- a chain that is through keeps its buffers
          have hc : w'.completion q.chain 0 = w.completion q.chain 0 := by
            unfold Workers.completion
            rw [hreq, ha.bufs _ (h.ne_of_finished hat hq)]
          rw [hc]; exact hm.completed _ _ (h.owed q callNext hq)
        · obtain ⟨rfl, _, _, h4, _⟩ := hcont q callNext hq
          exact h4
      stage := by
        intro b
        by_cases hb : b = w.blockOf p
        · subst hb; exact hstage
        · rw [hm.queue b hb]
          exact (h.stage b).frame (ha.kept h ht hb) }

theorem recordSent_self : w.recordSent p (w.blockOf p) = w.sent (w.blockOf p) ++ [p] :=
  update_self _ _ _

theorem recordSent_of_ne {b : Nat} (hb : b ≠ w.blockOf p) : w.recordSent p b = w.sent b :=
  update_of_ne hb _ _

theorem HandOver.sendNext_inner {b : Nat} (h : HandOver w s) (hk : p.chain ∈ w.accepted b)
    (hi : p.index < (w.chains p.chain).ops.length) :
    w.sendNext p = [.send ⟨p.chain, p.index + 1⟩] := by
  unfold Workers.sendNext
  rw [h.inner b _ hk _ hi]
  rfl

theorem HandOver.sendOp {op : BlockOp n} (h : HandOver w s)
    (ht : w.tasks[i]? = some (.send p)) (hop : w.opAt p = some op) (ha : op.assertion = true) :
    ∃ s', s.step (.send (w.blockOf p)) = some s' ∧ HandOver (w.sendOp i p op) s' := by
  obtain ⟨done, ks, hat, hq⟩ := h.atOp ht
  have hlt : p.index < (w.chains p.chain).ops.length := (List.getElem?_eq_some_iff.mp hop).1
  have hnext := h.sendNext_inner hat.mem hlt
  have hadv : Advance w (w.sendOp i p op) i p [.send ⟨p.chain, p.index + 1⟩] :=
    { mapped := rfl, accepted := rfl, nextChain := rfl, chains := rfl, blockOpNext := rfl
      tasks := by rw [← hnext]; rfl
      bufs := fun k hk => update_of_ne hk _ _
      sent := fun b hb => recordSent_of_ne hb
      inProcess := fun _ _ => rfl
      blockOpsEnd := fun _ _ => rfl
      grows := ⟨[p], recordSent_self.symm⟩
      stays := fun b hb => by
        rw [filterMap_cons, show w.token b (.send ⟨p.chain, p.index + 1⟩) = none from
          token_send_of_ne hb]
        rfl }
  refine ⟨_, Serial.step_send hq rfl (chainAt_ops hop) ha, h.advance ht hadv
    ⟨rfl, fun b hb => update_of_ne hb _ _, fun _ _ hc => hc⟩ ?_ (by simp) h.notified ?_⟩
  · show (P.send _ op ((w.chainAt p.chain p.index false).bufs, s.pol)).2 = _
    rw [h.pol]; rfl
  · show Stage _ _ (update s.queue _ _ _)
    have hhead : ({ w.chainAt p.chain p.index false with
          ops := (w.chains p.chain).ops.drop (p.index + 1)
          bufs := (P.send (w.chainAt p.chain p.index false).req op
            ((w.chainAt p.chain p.index false).bufs, s.pol)).1 } : Chain n bs)
        = (w.sendOp i p op).chainAt p.chain (p.index + 1) false := by
      unfold Workers.chainAt Workers.sendOp
      rw [h.pol]
      simp only [update_self]
      rfl
    have htail : ks.map (w.chainAt · 0 false)
        = ks.map ((w.sendOp i p op).chainAt · 0 false) := by
      refine map_congr_left fun j hj => Eq.symm ?_
      refine chainAt_congr (w := w) rfl (hadv.bufs j ?_)
      rintro rfl
      exact (hat.not_mem (h.nodup _)).2 hj
    rw [update_self, hhead, htail]
    refine .atOp done p.chain ks (p.index + 1) false ⟨hat.accepted, hlt, hat.inProcess,
      hat.blockOpsEnd, ?_, hat.linked.congr (fun _ _ => rfl) (fun _ _ => rfl), ?_⟩
    · show w.recordSent p _ = done.flatMap w.ptrs ++ (w.ptrs p.chain).take (p.index + 1)
      rw [recordSent_self, hat.sent, ptrs_take_succ hat.bound, append_assoc]
    · show (w.continueAs i (w.sendNext p)).filterMap (w.token (w.blockOf p)) = _
      rw [filterMap_continueAs_single ht (token_send rfl) hat.tokens, hnext, filterMap_cons,
        show w.token (w.blockOf p) (.send ⟨p.chain, p.index + 1⟩) = some ⟨p.chain, p.index + 1⟩ from
          token_send rfl]
      rfl

theorem HandOver.failOp {op : BlockOp n} {r : Int} (h : HandOver w s)
    (ht : w.tasks[i]? = some (.send p)) (hop : w.opAt p = some op) (hf : op.fallible = true)
    (hr : r < 0) :
    ∃ s', s.step (.fail (w.blockOf p) r) = some s' ∧ HandOver (w.failOp i p r) s' := by
  obtain ⟨done, ks, hat, hq⟩ := h.atOp ht
  have hadv : Advance w (w.failOp i p r) i p [] :=
    { mapped := rfl, accepted := rfl, nextChain := rfl, chains := rfl, blockOpNext := rfl
      tasks := rfl
      bufs := fun _ _ => rfl
      sent := fun _ _ => rfl
      inProcess := fun _ _ => rfl
      blockOpsEnd := fun _ _ => rfl
      grows := prefix_refl _
      stays := fun _ _ => rfl }
  refine ⟨_, Serial.step_fail hq rfl (chainAt_ops hop) hf hr,
    h.advance ht hadv .fail h.pol (by simp) ?_ ?_⟩
  · intro c hc
    rcases mem_append.mp hc with hc | hc
    · exact mem_update_append (h.notified c hc)
    · rw [mem_singleton.mp hc]
      show _ ∈ update s.completed _ _ (w.blockOf p)
      rw [update_self]
      exact mem_append_right _ (mem_singleton.mpr rfl)
  · show Stage _ _ (update s.queue _ _ _)
    rw [update_self]
    refine .atOp done p.chain ks p.index true ⟨hat.accepted, hat.bound, hat.inProcess,
      hat.blockOpsEnd, hat.sent, hat.linked.congr (fun _ _ => rfl) (fun _ _ => rfl), ?_⟩
    exact filterMap_continueAs_single ht (token_send rfl) hat.tokens

section Locked

variable {done ks : List Nat} (h : HandOver w s) (ht : w.tasks[i]? = some (.send p))
  (hat : AtOp w (w.blockOf p) done p.chain ks p.index false) (hop : w.opAt p = none)

theorem lockedSection_last (hn : w.blockOpNext p = none) : w.lockedSection i p = { w with
    sent := w.recordSent p
    inProcess := update w.inProcess (w.blockOf p) false
    blockOpsEnd := update w.blockOpsEnd (w.blockOf p) none
    tasks := w.continueAs i [.completed p false] } := by
  unfold Workers.lockedSection; rw [hn]

theorem lockedSection_next {q : Ptr} (hn : w.blockOpNext p = some q) : w.lockedSection i p =
    { w with sent := w.recordSent p, tasks := w.continueAs i [.completed p true] } := by
  unfold Workers.lockedSection; rw [hn]

theorem advance_last (hn : w.blockOpNext p = none) :
    Advance w (w.lockedSection i p) i p [.completed p false] := by
  rw [lockedSection_last hn]
  exact
    { mapped := rfl, accepted := rfl, nextChain := rfl, chains := rfl, blockOpNext := rfl
      tasks := rfl
      bufs := fun _ _ => rfl
      sent := fun b hb => recordSent_of_ne hb
      inProcess := fun b hb => update_of_ne hb _ _
      blockOpsEnd := fun b hb => update_of_ne hb _ _
      grows := ⟨[p], recordSent_self.symm⟩
      stays := fun _ _ => rfl }

theorem advance_next {q : Ptr} (hn : w.blockOpNext p = some q) :
    Advance w (w.lockedSection i p) i p [.completed p true] := by
  rw [lockedSection_next hn]
  exact
    { mapped := rfl, accepted := rfl, nextChain := rfl, chains := rfl, blockOpNext := rfl
      tasks := rfl
      bufs := fun _ _ => rfl
      sent := fun b hb => recordSent_of_ne hb
      inProcess := fun _ _ => rfl
      blockOpsEnd := fun _ _ => rfl
      grows := ⟨[p], recordSent_self.symm⟩
      stays := fun b hb => by simp [Workers.token, Ne.symm hb] }

include hat hop in
theorem AtOp.index_eq : p.index = (w.chains p.chain).ops.length :=
  Nat.le_antisymm hat.bound (List.getElem?_eq_none_iff.mp hop)

include hat hop in
theorem AtOp.eq_completeOp : p = w.completeOp p.chain := by
  have hlen := hat.index_eq hop
  obtain ⟨k, j⟩ := p
  exact congrArg (Ptr.mk k) hlen

include hat hop in
theorem AtOp.recordSent_eq :
    w.recordSent p (w.blockOf p) = (done ++ [p.chain]).flatMap w.ptrs := by
  rw [recordSent_self, hat.sent, append_assoc, ← ptrs_take_succ hat.bound, hat.index_eq hop,
    ptrs_take_all, flatMap_append, flatMap_singleton]

include h ht in
theorem HandOver.finish {callNext : Bool} {cs : List (Chain n bs)}
    (hadv : Advance w (w.lockedSection i p) i p [.completed p callNext])
    (hp : p = w.completeOp p.chain) (hnext : callNext = true → ∃ q, w.blockOpNext p = some q)
    (hstage : Stage (w.lockedSection i p) (w.blockOf p) cs) :
    HandOver (w.lockedSection i p)
      (s.finish (w.blockOf p) (w.chainAt p.chain p.index false) cs) := by
  have hcompleted : w.completion p.chain 0 ∈ (s.finish (w.blockOf p)
      (w.chainAt p.chain p.index false) cs).completed (w.blockOf p) := by
    show _ ∈ update s.completed _ _ _
    rw [update_self]
    exact mem_append_right _ (mem_singleton.mpr rfl)
  refine h.advance ht hadv .finish (by rw [lockedSection_pol]; exact h.pol) ?_ ?_ ?_
  · intro q callNext' hm
    cases mem_singleton.mp hm
    have hc : (w.lockedSection i p).completion p.chain 0 = w.completion p.chain 0 := by
      unfold Workers.completion Workers.reqOf
      rw [hadv.chains, lockedSection_bufs]
    refine ⟨rfl, hp, ?_, hc ▸ hcompleted, hnext⟩
    rw [lockedSection_sent, recordSent_self]
    exact mem_append_right _ (mem_singleton.mpr rfl)
  · intro c hc
    rw [lockedSection_notified] at hc
    exact mem_update_append (h.notified c hc)
  · show Stage _ _ (update s.queue _ _ _)
    rw [update_self]
    exact hstage

include h ht hop in
theorem HandOver.finish_last (hat : AtOp w (w.blockOf p) done p.chain [] p.index false) :
    HandOver (w.lockedSection i p)
      (s.finish (w.blockOf p) (w.chainAt p.chain p.index false) []) := by
  have hp := hat.eq_completeOp hop
  have hn : w.blockOpNext p = none := by rw [hp]; exact hat.linked
  refine h.finish ht (advance_last hn) hp nofun ?_
  rw [lockedSection_last hn]
  refine .drained ⟨update_self _ _ _, update_self _ _ _, ?_,
    filterMap_continueAs_single ht (token_send rfl) hat.tokens⟩
  show w.recordSent p _ = (w.accepted (w.blockOf p)).flatMap w.ptrs
  rw [hat.recordSent_eq hop, hat.accepted]

include h ht hop in
theorem HandOver.finish_next {k : Nat}
    (hat : AtOp w (w.blockOf p) done p.chain (k :: ks) p.index false) :
    HandOver (w.lockedSection i p) (s.finish (w.blockOf p) (w.chainAt p.chain p.index false)
      ((k :: ks).map (w.chainAt · 0 false))) := by
  have hp := hat.eq_completeOp hop
  have hn : w.blockOpNext p = some ⟨k, 0⟩ := by rw [hp]; exact hat.linked.1
  refine h.finish ht (advance_next hn) hp (fun _ => ⟨_, hn⟩) ?_
  rw [lockedSection_next hn]
  refine .atOp (done ++ [p.chain]) k ks 0 false ⟨?_, Nat.zero_le _, hat.inProcess, ?_, ?_,
    hat.linked.2.congr (fun _ _ => rfl) (fun _ _ => rfl), ?_⟩
  · rw [append_assoc]; exact hat.accepted
  · show w.blockOpsEnd _ = _
    rw [hat.blockOpsEnd, getLastD_cons]; rfl
  · show w.recordSent p _ = _
    rw [hat.recordSent_eq hop, take_zero, append_nil]; rfl
  · show (w.continueAs i _).filterMap (w.token (w.blockOf p)) = _
    rw [filterMap_continueAs_single ht (token_send rfl) hat.tokens]
    simp [Workers.token, hn]

include h ht hop in
theorem HandOver.lockedSection :
    ∃ s', s.step (.finish (w.blockOf p)) = some s' ∧ HandOver (w.lockedSection i p) s' := by
  obtain ⟨done, ks, hat, hq⟩ := h.atOp ht
  have hops : (w.chainAt p.chain p.index false).ops = [] := by
    show (w.chains p.chain).ops.drop p.index = []
    rw [hat.index_eq hop, drop_length]
  refine ⟨_, Serial.step_finish hq rfl hops, ?_⟩
  cases ks with
  | nil => exact h.finish_last ht hop hat
  | cons k ks => exact h.finish_next ht hop hat

end Locked

theorem HandOver.notify {callNext : Bool} (h : HandOver w s)
    (ht : w.tasks[i]? = some (.completed p callNext)) : HandOver (w.notify i p callNext) s := by
  have hm : Task.completed p callNext ∈ w.tasks := mem_of_getElem? ht
  -- whichever block one looks at, the thread is at the same operation as before
  have htok : ∀ b, (w.notify i p callNext).tokens b = w.tokens b := by
    intro b
    show (w.continueAs i _).filterMap (w.token b) = _
    refine filterMap_continueAs_same ht ?_
    cases callNext with
    | false => rfl
    | true =>
      obtain ⟨q, hq⟩ := h.found p hm
      have hblock : w.blockOf q = w.blockOf p := by
        obtain ⟨_, _, hat, _⟩ := h.atOp_of_token (b := w.blockOf p) (p := q)
          (mem_filterMap.mpr ⟨_, hm, by simp [Workers.token, hq]⟩)
        exact h.block _ _ hat.mem
      by_cases hb : w.blockOf p = b
      · simp [Workers.sendNext, Workers.token, hq, hblock, hb]
      · simp [Workers.sendNext, Workers.token, hq, hblock, hb]
  have hold : ∀ q c, Task.completed q c ∈ (w.notify i p callNext).tasks →
      Task.completed q c ∈ w.tasks := by
    intro q c hq
    rcases mem_continueAs hq with hq | hq
    · exact hq
    · split at hq
      · obtain ⟨_, _, he⟩ := mem_map.mp hq
        cases he
      · cases hq
  exact
    { pol := h.pol
      accepted := h.accepted
      served := h.served
      fresh := h.fresh
      nodup := h.nodup
      block := h.block
      inner := h.inner
      finished := fun q c hq => h.finished q c (hold q c hq)
      found := fun q hq => h.found q (hold q true hq)
      notified := by
        intro c hc
        rcases mem_append.mp hc with hc | hc
        · exact h.notified c hc
        · rw [mem_singleton.mp hc]; exact h.owed p callNext hm
      owed := fun q c hq => h.owed q c (hold q c hq)
      stage := fun b => (h.stage b).frame
        { accepted := rfl
          sent := rfl
          inProcess := rfl
          blockOpsEnd := rfl
          tokens := htok b
          chains := fun _ _ => rfl
          bufs := fun _ _ => rfl
          next := fun _ _ => rfl } }

end Threads

/-! ## What the mapper does -/

section Mapper

variable {w : Workers P} {s : Serial P} {req : BlockRequest bs} {scratch : Bytes}

theorem HandOver.blockOpsEnd_cases {b : Nat} {p : Ptr} (h : HandOver w s)
    (hp : w.blockOpsEnd b = some p) :
    p.chain ∈ w.accepted b ∧ p = w.completeOp p.chain ∧ w.blockOpNext p = none := by
  have hst := h.stage b
  generalize s.queue b = q at hst
  cases hst with
  | drained hd => rw [hd.blockOpsEnd] at hp; cases hp
  | atOp done k ks i failed hat =>
    rw [hat.blockOpsEnd] at hp
    cases Option.some.inj hp
    refine ⟨?_, rfl, hat.linked.last⟩
    rw [hat.accepted]
    exact mem_append_right _ getLastD_mem_cons

theorem HandOver.lt_nextChain_of_mem_tasks {t : Task} (h : HandOver w s) (ht : t ∈ w.tasks) :
    t.ptr.chain < w.nextChain := by
  cases t with
  | send p =>
    obtain ⟨i, hi⟩ := mem_iff_getElem?.mp ht
    obtain ⟨_, _, hat, _⟩ := h.atOp hi
    exact h.fresh _ _ hat.mem
  | completed p callNext => exact h.fresh _ _ (h.finished p callNext ht).1

theorem mapBlock_chains_of_ne {k : Nat} (hk : k ≠ w.nextChain) :
    (w.mapBlock req scratch).chains k = w.chains k := by
  rw [Workers.mapBlock_chains, update_of_ne hk]

theorem mapBlock_bufs_of_ne {k : Nat} (hk : k ≠ w.nextChain) :
    (w.mapBlock req scratch).bufs k = w.bufs k := by
  rw [Workers.mapBlock_bufs, update_of_ne hk]

theorem mapBlock_blockOpNext_of_ne {p : Ptr} (hk : p.chain ≠ w.nextChain)
    (hp : w.blockOpsEnd req.block ≠ some p) :
    (w.mapBlock req scratch).blockOpNext p = w.blockOpNext p := by
  have hlink : linkChain w.nextChain (P.map req w.pol).1.length w.blockOpNext p
      = w.blockOpNext p := by
    unfold Workers.linkChain; rw [if_neg hk]
  rw [Workers.mapBlock_blockOpNext]
  split
  · cases he : w.blockOpsEnd req.block with
    | none => exact hlink
    | some q =>
      have hne : p ≠ q := by
        rintro rfl
        exact hp he
      show update _ q _ p = _
      rw [update_of_ne hne]; exact hlink
  · exact hlink

theorem HandOver.mapBlock_blockOpNext_new (h : HandOver w s) (i : Nat) :
    (w.mapBlock req scratch).blockOpNext ⟨w.nextChain, i⟩
      = if i < (P.map req w.pol).1.length then some ⟨w.nextChain, i + 1⟩ else none := by
  have hlink : linkChain w.nextChain (P.map req w.pol).1.length w.blockOpNext ⟨w.nextChain, i⟩
      = if i < (P.map req w.pol).1.length then some ⟨w.nextChain, i + 1⟩ else none := by
    unfold Workers.linkChain; rw [if_pos rfl]
  rw [Workers.mapBlock_blockOpNext]
  split
  · cases he : w.blockOpsEnd req.block with
    | none => exact hlink
    | some q =>
      have hne : (⟨w.nextChain, i⟩ : Ptr) ≠ q := by
        rintro rfl
        exact absurd (h.fresh _ _ (h.blockOpsEnd_cases he).1) (Nat.lt_irrefl _)
      show update _ q _ _ = _
      rw [update_of_ne hne]; exact hlink
  · exact hlink

theorem mapBlock_chainAt_new (hpol : s.pol = w.pol) :
    (w.mapBlock req scratch).chainAt w.nextChain 0 false = Serial.chainOf req scratch s.pol := by
  unfold Workers.chainAt
  rw [Workers.mapBlock_chains, Workers.mapBlock_bufs, update_self, update_self, hpol]
  rfl

theorem mapBlock_blockOf_new : (w.mapBlock req scratch).blockOf ⟨w.nextChain, 0⟩ = req.block := by
  unfold Workers.blockOf Workers.reqOf
  rw [Workers.mapBlock_chains, update_self]
  rfl

theorem HandOver.mapBlock_found {p : Ptr} (h : HandOver w s)
    (ht : Task.completed p true ∈ w.tasks) :
    (w.mapBlock req scratch).blockOpNext p = w.blockOpNext p := by
  refine mapBlock_blockOpNext_of_ne (Nat.ne_of_lt (h.lt_nextChain_of_mem_tasks ht)) fun he => ?_
  -- there is a chain behind it, so its own is not the last one
  obtain ⟨q, hq⟩ := h.found p ht
  rw [(h.blockOpsEnd_cases he).2.2] at hq
  cases hq

theorem HandOver.filterMap_token_mapBlock (h : HandOver w s) (b : Nat) :
    w.tasks.filterMap ((w.mapBlock req scratch).token b) = w.tokens b := by
  refine filterMap_congr fun t ht => ?_
  refine token_congr (mapBlock_chains_of_ne (Nat.ne_of_lt (h.lt_nextChain_of_mem_tasks ht))) ?_
  rintro q rfl
  exact h.mapBlock_found ht

theorem HandOver.mapBlock_kept {b : Nat} (h : HandOver w s) (hb : b ≠ req.block) :
    Kept w (w.mapBlock req scratch) b where
  accepted := by rw [Workers.mapBlock_accepted, update_of_ne hb]
  sent := by rw [Workers.mapBlock_sent]
  inProcess := by rw [Workers.mapBlock_inProcess, update_of_ne hb]
  blockOpsEnd := by rw [Workers.mapBlock_blockOpsEnd, update_of_ne hb]
  tokens := by
    unfold Workers.tokens
    rw [Workers.mapBlock_tasks]
    split
    · exact h.filterMap_token_mapBlock b
    · rw [filterMap_append, h.filterMap_token_mapBlock b, filterMap_cons,
        token_send_of_ne (by rw [mapBlock_blockOf_new]; exact hb)]
      exact append_nil _
  chains := fun k hk => mapBlock_chains_of_ne (Nat.ne_of_lt (h.fresh b k hk))
  bufs := fun k hk => mapBlock_bufs_of_ne (Nat.ne_of_lt (h.fresh b k hk))
  next := fun k hk => by
    refine mapBlock_blockOpNext_of_ne (Nat.ne_of_lt (h.fresh b k hk)) fun he => ?_
    exact h.ne_of_block (h.blockOpsEnd_cases he).1 hk hb rfl

theorem HandOver.mapBlock_atOp {done : List Nat} {k : Nat} {ks : List Nat} {i : Nat}
    {failed : Bool} (h : HandOver w s) (hat : AtOp w req.block done k ks i failed) :
    AtOp (w.mapBlock req scratch) req.block done k (ks ++ [w.nextChain]) i failed := by
  have hmem : ∀ j ∈ k :: ks, j ∈ w.accepted req.block := by
    intro j hj
    rw [hat.accepted]; exact mem_append_right _ hj
  have hchains : ∀ j ∈ w.accepted req.block, (w.mapBlock req scratch).chains j = w.chains j :=
    fun j hj => mapBlock_chains_of_ne (Nat.ne_of_lt (h.fresh _ j hj))
  have hkk := hchains k hat.mem
  refine ⟨?_, ?_, ?_, ?_, ?_, ?_, ?_⟩
  · rw [Workers.mapBlock_accepted, update_self, hat.accepted, append_assoc]
    rfl
  · rw [hkk]; exact hat.bound
  · rw [Workers.mapBlock_inProcess, update_self]
  · rw [Workers.mapBlock_blockOpsEnd, update_self, getLastD_concat]
  · rw [Workers.mapBlock_sent, hat.sent, ptrs_congr hkk, flatMap_ptrs_congr fun j hj =>
      hchains j (by rw [hat.accepted]; exact mem_append_left _ hj)]
  · -- the end of the last chain is the one pointer the mapper writes
    have hnd : (k :: ks).Nodup := by
      have := h.nodup req.block
      rw [hat.accepted] at this
      exact (nodup_append.mp this).2.1
    refine hat.linked.append hnd (fun j hj => hchains j (hmem j hj)) ?_ ?_ ?_
    · intro j hj hne
      refine mapBlock_blockOpNext_of_ne (Nat.ne_of_lt (h.fresh _ j (hmem j hj))) fun he => ?_
      rw [hat.blockOpsEnd] at he
      exact hne (congrArg Ptr.chain (Option.some.inj he)).symm
    · rw [Workers.mapBlock_blockOpNext, if_pos hat.inProcess, hat.blockOpsEnd]
      exact update_self _ _ _
    · unfold Workers.completeOp
      rw [h.mapBlock_blockOpNext_new, Workers.mapBlock_chains, update_self]
      exact if_neg (Nat.lt_irrefl _)
  · unfold Workers.tokens
    rw [Workers.mapBlock_tasks, if_pos hat.inProcess, h.filterMap_token_mapBlock, hat.tokens]

theorem HandOver.mapBlock_drained (h : HandOver w s) (hd : Drained w req.block) :
    AtOp (w.mapBlock req scratch) req.block (w.accepted req.block) w.nextChain [] 0 false := by
  refine ⟨?_, Nat.zero_le _, ?_, ?_, ?_, ?_, ?_⟩
  · rw [Workers.mapBlock_accepted, update_self]
  · rw [Workers.mapBlock_inProcess, update_self]
  · rw [Workers.mapBlock_blockOpsEnd, update_self]; rfl
  · rw [Workers.mapBlock_sent, hd.sent, take_zero, append_nil,
      flatMap_ptrs_congr fun j hj => mapBlock_chains_of_ne (Nat.ne_of_lt (h.fresh _ j hj))]
  · unfold Workers.Linked Workers.completeOp
    rw [h.mapBlock_blockOpNext_new, Workers.mapBlock_chains, update_self]
    exact if_neg (Nat.lt_irrefl _)
  · unfold Workers.tokens
    rw [Workers.mapBlock_tasks, if_neg (by rw [hd.inProcess]; simp), filterMap_append,
      h.filterMap_token_mapBlock, hd.tokens, filterMap_cons,
      token_send mapBlock_blockOf_new]
    rfl

theorem mem_mapBlock_accepted {b k : Nat} (hk : k ∈ (w.mapBlock req scratch).accepted b) :
    k ∈ w.accepted b ∨ b = req.block ∧ k = w.nextChain := by
  rw [Workers.mapBlock_accepted] at hk
  by_cases hb : b = req.block
  · subst hb
    rw [update_self] at hk
    rcases mem_append.mp hk with hk | hk
    · exact Or.inl hk
    · exact Or.inr ⟨rfl, mem_singleton.mp hk⟩
  · rw [update_of_ne hb] at hk; exact Or.inl hk

theorem mem_mapBlock_tasks {p : Ptr} {callNext : Bool}
    (h : Task.completed p callNext ∈ (w.mapBlock req scratch).tasks) :
    Task.completed p callNext ∈ w.tasks := by
  rw [Workers.mapBlock_tasks] at h
  split at h
  · exact h
  · rcases mem_append.mp h with h | h
    · exact h
    · cases mem_singleton.mp h

theorem HandOver.mapBlock_stage (h : HandOver w s) :
    Stage (w.mapBlock req scratch) req.block
      (s.queue req.block ++ [Serial.chainOf req scratch s.pol]) := by
  rw [← mapBlock_chainAt_new h.pol]
  have hst := h.stage req.block
  generalize s.queue req.block = q at hst
  cases hst with
  | drained hd => exact .atOp _ _ [] 0 false (h.mapBlock_drained hd)
  | atOp done k ks i failed hat =>
    have hmem : ∀ j ∈ k :: ks, j ≠ w.nextChain := by
      intro j hj
      refine Nat.ne_of_lt (h.fresh req.block j ?_)
      rw [hat.accepted]; exact mem_append_right _ hj
    have hcongr : ∀ j ∈ k :: ks, ∀ i failed,
        (w.mapBlock req scratch).chainAt j i failed = w.chainAt j i failed :=
      fun j hj _ _ => chainAt_congr (mapBlock_chains_of_ne (hmem j hj))
        (mapBlock_bufs_of_ne (hmem j hj))
    have hat' : AtOp (w.mapBlock req scratch) req.block done k (ks ++ [w.nextChain]) i failed :=
      h.mapBlock_atOp hat
    have hst' := Stage.atOp _ _ _ _ _ hat'
    rw [map_append, hcongr k mem_cons_self,
      map_congr_left fun j hj => hcongr j (mem_cons_of_mem _ hj) 0 false] at hst'
    exact hst'

theorem HandOver.mapBlock (h : HandOver w s) :
    HandOver (w.mapBlock req scratch) (s.accept req scratch) := by
  have hne : ∀ b, ∀ k ∈ w.accepted b, k ≠ w.nextChain :=
    fun b k hk => Nat.ne_of_lt (h.fresh b k hk)
  have hreq : ∀ k, k ≠ w.nextChain → (w.mapBlock req scratch).reqOf k = w.reqOf k := by
    intro k hk
    unfold Workers.reqOf; rw [mapBlock_chains_of_ne hk]
  have hreqNew : (w.mapBlock req scratch).reqOf w.nextChain = req := by
    unfold Workers.reqOf; rw [Workers.mapBlock_chains, update_self]; rfl
  have hold : ∀ p callNext, Task.completed p callNext ∈ (w.mapBlock req scratch).tasks →
      p.chain ≠ w.nextChain := fun p callNext hp =>
    Nat.ne_of_lt (h.lt_nextChain_of_mem_tasks (mem_mapBlock_tasks hp))
  refine
    { pol := by rw [Workers.mapBlock_pol, ← h.pol]; rfl
      accepted := ?_
      served := ?_
      fresh := ?_
      nodup := ?_
      block := ?_
      inner := ?_
      finished := ?_
      found := ?_
      notified := by rw [Workers.mapBlock_notified]; exact h.notified
      owed := ?_
      stage := ?_ }
  · intro b
    show update s.accepted _ _ b = _
    rw [Workers.mapBlock_mapped]
    by_cases hb : b = req.block
    · subst hb; rw [update_self, update_self, h.accepted]
    · rw [update_of_ne hb, update_of_ne hb, h.accepted]
  · intro b
    have hmap : (w.accepted b).map (w.mapBlock req scratch).reqOf = w.mapped b := by
      rw [map_congr_left fun k hk => hreq k (hne b k hk)]; exact h.served b
    rw [Workers.mapBlock_mapped, Workers.mapBlock_accepted]
    by_cases hb : b = req.block
    · subst hb
      rw [update_self, update_self, map_append, hmap, map_singleton, hreqNew]
    · rw [update_of_ne hb, update_of_ne hb, hmap]
  · intro b k hk
    rw [Workers.mapBlock_nextChain]
    rcases mem_mapBlock_accepted hk with hk | ⟨_, rfl⟩
    · exact Nat.lt_succ_of_lt (h.fresh b k hk)
    · exact Nat.lt_succ_self _
  · intro b
    rw [Workers.mapBlock_accepted]
    by_cases hb : b = req.block
    · subst hb
      rw [update_self, nodup_append]
      refine ⟨h.nodup _, nodup_singleton _, ?_⟩
      intro k hk k' hk'
      rw [mem_singleton.mp hk']; exact hne _ k hk
    · rw [update_of_ne hb]; exact h.nodup b
  · intro b k hk
    rcases mem_mapBlock_accepted hk with hk | ⟨rfl, rfl⟩
    · rw [hreq k (hne b k hk)]; exact h.block b k hk
    · rw [hreqNew]
  · intro b k hk i hi
    rcases mem_mapBlock_accepted hk with hk | ⟨rfl, rfl⟩
    · rw [mapBlock_chains_of_ne (hne b k hk)] at hi
      rw [← h.inner b k hk i hi]
      refine mapBlock_blockOpNext_of_ne (hne b k hk) fun he => ?_
      -- the mapper writes behind the last operation of a chain
      have hlen : i = (w.chains k).ops.length := congrArg Ptr.index (h.blockOpsEnd_cases he).2.1
      omega
    · rw [Workers.mapBlock_chains, update_self] at hi
      rw [h.mapBlock_blockOpNext_new]; exact if_pos hi
  · intro p callNext hp
    have hp' := hold p callNext hp
    obtain ⟨h1, h2, h3⟩ := h.finished p callNext (mem_mapBlock_tasks hp)
    rw [blockOf_congr (mapBlock_chains_of_ne hp'), completeOp_congr (mapBlock_chains_of_ne hp'),
      Workers.mapBlock_sent, Workers.mapBlock_accepted]
    exact ⟨mem_update_append h1, h2, h3⟩
  · intro p hp
    rw [h.mapBlock_found (mem_mapBlock_tasks hp)]; exact h.found p (mem_mapBlock_tasks hp)
  · intro p callNext hp
    have hp' := hold p callNext hp
    have hc : (w.mapBlock req scratch).completion p.chain 0 = w.completion p.chain 0 := by
      unfold Workers.completion; rw [hreq _ hp', mapBlock_bufs_of_ne hp']
    rw [blockOf_congr (mapBlock_chains_of_ne hp'), hc]
    exact h.owed p callNext (mem_mapBlock_tasks hp)
  · intro b
    show Stage _ b (update s.queue _ _ b)
    by_cases hb : b = req.block
    · subst hb; rw [update_self]; exact h.mapBlock_stage
    · rw [update_of_ne hb]; exact (h.stage b).frame (h.mapBlock_kept hb)

end Mapper

end HDCS.Proof
