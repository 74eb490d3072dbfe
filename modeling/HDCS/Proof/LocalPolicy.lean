import HDCS.Core.Serial

/-!
# Policies whose chains keep to their own block

A policy is local when what `map` builds depends on the request only, and an
operation of a chain acts on nothing but the chain's buffers and one part of the
state that belongs to the block, its cell. In a run of such a policy a block does
not notice the others: what it has come to is what its own requests lead to, one
executed after the other (`LocalPolicy.Settles`), however the chains of all
blocks were interleaved (`LocalPolicy.settles_reachable`).
-/

namespace HDCS

open Lib Function Lib.Machine List

/-- A request mapped and executed from beginning to end, with nothing else going on. -/
def Policy.execute {n bs : Nat} (P : Policy n bs) (req : BlockRequest bs) (scratch : Bytes)
    (s : P.State) : Bufs × P.State :=
  (P.map req s).1.foldl (fun x op => P.send req op x) (⟨req.data, scratch⟩, (P.map req s).2)

namespace Proof

variable {n bs : Nat} {P : Policy n bs} {γ : Type}

def AllRequests (p : BlockRequest bs → Prop) (s : Serial P) : Prop :=
  ∀ b, (∀ c ∈ s.queue b, p c.req) ∧ ∀ x ∈ s.completed b, p x.req

theorem AllRequests.update {p : BlockRequest bs → Prop} {s s' : Serial P} {b : Nat}
    {q : List (Chain n bs)} {done : List (Completion bs)} (h : AllRequests p s)
    (hq : s'.queue = update s.queue b q)
    (hd : s'.completed = update s.completed b done)
    (hp : (∀ c ∈ q, p c.req) ∧ ∀ x ∈ done, p x.req) : AllRequests p s' := by
  intro b'
  rw [hq, hd]
  by_cases hb : b' = b
  · subst hb
    rw [update_self, update_self]
    exact hp
  · rw [update_of_ne hb, update_of_ne hb]
    exact h b'

theorem allRequests_reachable {p : BlockRequest bs → Prop} {ok : Serial P → Serial.Act bs → Prop}
    {s₀ s : Serial P} (hok : ∀ s req scratch, ok s (.accept req scratch) → p req)
    (h₀ : AllRequests p s₀) (hr : Reachable Serial.step ok s₀ s) : AllRequests p s := by
  refine hr.invariant (I := AllRequests p) h₀ ?_
  intro s a s' h ha hs
  -- the request of the running chain, and those of the chains behind it
  have hrunning : ∀ b c cs, s.queue b = c :: cs → p c.req ∧ ∀ c' ∈ cs, p c'.req := by
    intro b c cs hq
    have hb := (h b).1
    rw [hq] at hb
    exact forall_mem_cons.mp hb
  rcases Serial.step_cases hs with ⟨req, scratch, rfl, _, rfl⟩
    | ⟨b, c, cs, op, ops, rfl, hq, _, _, _, rfl⟩
    | ⟨b, r, c, cs, op, ops, rfl, hq, _, _, _, _, rfl⟩ | ⟨b, c, cs, rfl, hq, _, _, rfl⟩
  · refine h.update rfl (update_eq_self _ _).symm ⟨?_, (h _).2⟩
    refine forall_mem_append.mpr ⟨(h _).1, fun c hc => ?_⟩
    rw [mem_singleton.mp hc]
    exact hok s req scratch ha
  · obtain ⟨hc, hcs⟩ := hrunning b c cs hq
    refine h.update rfl (update_eq_self b _).symm ⟨?_, (h b).2⟩
    exact forall_mem_cons.mpr ⟨hc, hcs⟩
  · obtain ⟨hc, hcs⟩ := hrunning b c cs hq
    refine h.update rfl rfl ⟨forall_mem_cons.mpr ⟨hc, hcs⟩, ?_⟩
    exact forall_mem_append.mpr ⟨(h b).2, by simpa using hc⟩
  · obtain ⟨hc, hcs⟩ := hrunning b c cs hq
    refine h.update rfl rfl ⟨hcs, ?_⟩
    exact forall_mem_append.mpr ⟨(h b).2, by simpa using hc⟩

section Executed

variable {ok : Serial P → Serial.Act bs → Prop} {b : Nat}

structure Executed (ok : Serial P → Serial.Act bs → Prop) (b : Nat) (req : BlockRequest bs)
    (s s' : Serial P) : Prop where
  reachable : Reachable Serial.step ok s s'
  queue : s'.queue = update s.queue b []
  completed : ∃ x, s'.completed b = s.completed b ++ [x] ∧ x.req = req

theorem exists_drained (hsend : ∀ s, ok s (.send b)) (hfinish : ∀ s, ok s (.finish b))
    (ops : List (BlockOp n)) :
    ∀ {s : Serial P} {c : Chain n bs}, s.queue b = [c] → c.failed = false → c.ops = ops →
      (∀ op ∈ ops, op.assertion = true) → ∃ s', Executed ok b c.req s s' := by
  induction ops with
  | nil =>
    intro s c hq hf ho _
    refine ⟨s.finish b c [], .tail .init (hfinish s) (Serial.step_finish hq hf ho), rfl, ?_⟩
    exact ⟨⟨c.req, 0, c.bufs.dataPtr⟩, update_self .., rfl⟩
  | cons op ops ih =>
    intro s c hq hf ho ha
    obtain ⟨hop, hops⟩ := forall_mem_cons.mp ha
    have hstep := Serial.step_send hq hf ho hop
    have hq' : (s.send b c [] op ops).queue b
        = [{ c with ops := ops, bufs := (P.send c.req op (c.bufs, s.pol)).1 }] :=
      update_self ..
    obtain ⟨s', hr, hqueue, hdone⟩ := ih hq' hf rfl hops
    refine ⟨s', (Reachable.tail .init (hsend s) hstep).trans hr, ?_, hdone⟩
    rw [hqueue]
    exact update_idem ..

/-- **A request of a block at rest can be executed**, while nothing happens elsewhere. -/
theorem exists_executed (ok : Serial P → Serial.Act bs → Prop) {s : Serial P}
    (req : BlockRequest bs) (haccept : ok s (.accept req fun _ => 0))
    (hsend : ∀ s, ok s (.send req.block)) (hfinish : ∀ s, ok s (.finish req.block))
    (hq : s.queue req.block = [])
    (hd : P.inDiscardProcess s.pol req.block = false)
    (ha : ∀ op ∈ (P.map req s.pol).1, op.assertion = true) :
    ∃ s', Executed ok req.block req s s' := by
  have hstep : s.step (.accept req fun _ => 0) = some (s.accept req fun _ => 0) :=
    Serial.step_accept hd
  have hq' : (s.accept req fun _ => 0).queue req.block
      = [Serial.chainOf req (fun _ => 0) s.pol] := by
    simp only [Serial.accept, update_self, hq, nil_append]
  obtain ⟨s', hr, hqueue, hdone⟩ := exists_drained hsend hfinish _ hq' rfl rfl ha
  refine ⟨s', (Reachable.tail .init haccept hstep).trans hr, ?_, hdone⟩
  rw [hqueue]
  exact update_idem ..

end Executed

structure LocalPolicy {n bs : Nat} (P : Policy n bs) (γ : Type) where
  /-- What holds of the policy's state from its construction on. -/
  Ok : P.State → Prop
  cell : P.State → Nat → γ
  chain : BlockRequest bs → List (BlockOp n)
  send : BlockRequest bs → BlockOp n → Bufs × γ → Bufs × γ
  map_ok : ∀ {req s}, Ok s → Ok (P.map req s).2
  map_ops : ∀ {req s}, Ok s → (P.map req s).1 = chain req
  map_cell : ∀ {req s} b, Ok s → cell (P.map req s).2 b = cell s b
  send_ok : ∀ {req op m s}, Ok s → op ∈ chain req → Ok (P.send req op (m, s)).2
  send_self : ∀ {req op m s}, Ok s → op ∈ chain req →
    ((P.send req op (m, s)).1, cell (P.send req op (m, s)).2 req.block)
      = send req op (m, cell s req.block)
  send_other : ∀ {req op m s b}, Ok s → op ∈ chain req → b ≠ req.block →
    cell (P.send req op (m, s)).2 b = cell s b

namespace LocalPolicy

variable (L : LocalPolicy P γ)

def run (req : BlockRequest bs) (ops : List (BlockOp n)) (x : Bufs × γ) : Bufs × γ :=
  ops.foldl (fun x op => L.send req op x) x

/-- A request executed on a cell from beginning to end. -/
def execute (req : BlockRequest bs) (scratch : Bytes) (v : γ) : Bufs × γ :=
  L.run req (L.chain req) (⟨req.data, scratch⟩, v)

inductive Settles (b : Nat) (v₀ : γ) : List (Completion bs) → γ → Prop where
  | nil : Settles b v₀ [] v₀
  | snoc {done : List (Completion bs)} {v : γ} (req : BlockRequest bs) (scratch : Bytes) :
      req.block = b → Settles b v₀ done v →
      Settles b v₀ (done ++ [⟨req, 0, (L.execute req scratch v).1.dataPtr⟩])
        (L.execute req scratch v).2

structure Unsent (b : Nat) (c : Chain n bs) : Prop where
  block : c.req.block = b
  ops : c.ops = L.chain c.req
  data : c.bufs.dataPtr = c.req.data

def Sent (b : Nat) (w v : γ) (c : Chain n bs) (sent : List (BlockOp n)) : Prop :=
  c.req.block = b ∧ L.chain c.req = sent ++ c.ops
    ∧ ∃ scratch, (c.bufs, v) = L.run c.req sent (⟨c.req.data, scratch⟩, w)

def UnderWay (b : Nat) (w v : γ) : List (Chain n bs) → Prop
  | [] => v = w
  | c :: cs => (∃ sent, L.Sent b w v c sent) ∧ ∀ c' ∈ cs, L.Unsent b c'

structure BlockRun (b : Nat) (v₀ : γ) (before : List (Completion bs)) (s : Serial P)
    (done : List (Completion bs)) (w : γ) : Prop where
  completed : s.completed b = before ++ done
  settles : L.Settles b v₀ done w
  underWay : L.UnderWay b w (L.cell s.pol b) (s.queue b)

def Dead (s : Serial P) (b : Nat) : Prop := ∃ c cs, s.queue b = c :: cs ∧ c.failed = true

structure Runs (s₀ s : Serial P) : Prop where
  ok : L.Ok s.pol
  blocks : ∀ b, Dead s b ∨ ∃ done w, L.BlockRun b (L.cell s₀.pol b) (s₀.completed b) s done w

variable {L} {s₀ s : Serial P} {b : Nat} {v₀ w v : γ} {c : Chain n bs} {cs : List (Chain n bs)}
  {before done : List (Completion bs)} {op : BlockOp n} {ops : List (BlockOp n)}

theorem run_snoc {req : BlockRequest bs} {x : Bufs × γ} :
    L.run req (ops ++ [op]) x = L.send req op (L.run req ops x) := by
  unfold run
  rw [foldl_append]
  rfl

theorem execute_cell (req : BlockRequest bs) (scratch : Bytes) {s : P.State} (h : L.Ok s) :
    ((P.execute req scratch s).1, L.cell (P.execute req scratch s).2 req.block)
      = L.execute req scratch (L.cell s req.block) := by
  have hrun : ∀ (ops : List (BlockOp n)) (x : Bufs × P.State), L.Ok x.2 →
      (∀ op ∈ ops, op ∈ L.chain req) →
      ((ops.foldl (fun x op => P.send req op x) x).1,
        L.cell (ops.foldl (fun x op => P.send req op x) x).2 req.block)
        = L.run req ops (x.1, L.cell x.2 req.block) := by
    intro ops
    induction ops with
    | nil => exact fun _ _ _ => rfl
    | cons op ops ih =>
      intro x hx hmem
      obtain ⟨hop, hops⟩ := forall_mem_cons.mp hmem
      have hself := L.send_self (m := x.1) hx hop
      rw [foldl_cons, ih _ (L.send_ok hx hop) hops]
      exact congrArg (L.run req ops) hself
  -- `map` itself does not touch the cell
  have hstart := hrun (P.map req s).1 (⟨req.data, scratch⟩, (P.map req s).2) (L.map_ok h)
    (by rw [L.map_ops h]; exact fun _ hop => hop)
  rw [L.map_ops h, L.map_cell _ h] at hstart
  unfold Policy.execute execute
  rw [L.map_ops h]
  exact hstart

/-! ## One block -/

theorem Unsent.sent (h : L.Unsent b c) : L.Sent b w w c [] := by
  refine ⟨h.block, h.ops.symm, c.bufs.blockBuffer, ?_⟩
  rw [← h.data]
  rfl

theorem UnderWay.append {q : List (Chain n bs)} (h : L.UnderWay b w v q) (hc : L.Unsent b c) :
    L.UnderWay b w v (q ++ [c]) := by
  cases q with
  | nil =>
    obtain rfl : v = w := h
    exact ⟨⟨[], hc.sent⟩, by simp⟩
  | cons c₁ cs =>
    refine ⟨h.1, ?_⟩
    intro c' hc'
    rcases mem_append.mp hc' with hc' | hc'
    · exact h.2 c' hc'
    · rw [mem_singleton.mp hc']
      exact hc

theorem Sent.mem {sent : List (BlockOp n)} (h : L.Sent b w v c sent) (ho : c.ops = op :: ops) :
    op ∈ L.chain c.req := by
  rw [h.2.1, ho]
  simp

theorem UnderWay.mem (h : L.UnderWay b w v (c :: cs)) (ho : c.ops = op :: ops) :
    op ∈ L.chain c.req := by
  obtain ⟨⟨sent, hsent⟩, _⟩ := h
  exact hsent.mem ho

theorem UnderWay.send (h : L.UnderWay b w v (c :: cs)) (ho : c.ops = op :: ops) :
    L.UnderWay b w (L.send c.req op (c.bufs, v)).2
      ({ c with ops := ops, bufs := (L.send c.req op (c.bufs, v)).1 } :: cs) := by
  obtain ⟨⟨sent, hb, hchain, scratch, heq⟩, hcs⟩ := h
  refine ⟨⟨sent ++ [op], hb, ?_, scratch, ?_⟩, hcs⟩
  · rw [append_assoc, singleton_append, ← ho]
    exact hchain
  · rw [run_snoc, ← heq]

theorem UnderWay.finish (h : L.UnderWay b w v (c :: cs)) (ho : c.ops = [])
    (hs : L.Settles b v₀ done w) :
    L.Settles b v₀ (done ++ [⟨c.req, 0, c.bufs.dataPtr⟩]) v ∧ L.UnderWay b v v cs := by
  obtain ⟨⟨sent, hb, hchain, scratch, heq⟩, hcs⟩ := h
  rw [ho, append_nil] at hchain
  have hex : (c.bufs, v) = L.execute c.req scratch w := by
    unfold execute
    rw [hchain]
    exact heq
  refine ⟨?_, ?_⟩
  · have := Settles.snoc (L := L) c.req scratch hb hs
    rwa [← hex] at this
  · cases cs with
    | nil => rfl
    | cons c' cs =>
      obtain ⟨hc', hcs⟩ := forall_mem_cons.mp hcs
      exact ⟨⟨[], hc'.sent⟩, hcs⟩

/-! ## Steps -/

theorem BlockRun.frame {s' : Serial P} (h : L.BlockRun b v₀ before s done w)
    (hcell : L.cell s'.pol b = L.cell s.pol b) (hq : s'.queue b = s.queue b)
    (hc : s'.completed b = s.completed b) : L.BlockRun b v₀ before s' done w :=
  ⟨hc.trans h.completed, h.settles, by rw [hcell, hq]; exact h.underWay⟩

theorem Dead.frame {s' : Serial P} (h : Dead s b) (hq : s'.queue b = s.queue b) : Dead s' b := by
  unfold Dead
  rw [hq]
  exact h

theorem Runs.other {s' : Serial P} (h : L.Runs s₀ s) (hcell : L.cell s'.pol b = L.cell s.pol b)
    (hq : s'.queue b = s.queue b) (hc : s'.completed b = s.completed b) :
    Dead s' b ∨ ∃ done w, L.BlockRun b (L.cell s₀.pol b) (s₀.completed b) s' done w := by
  rcases h.blocks b with hd | ⟨done, w, hb⟩
  · exact Or.inl (hd.frame hq)
  · exact Or.inr ⟨done, w, hb.frame hcell hq hc⟩

theorem Runs.alive (h : L.Runs s₀ s) (hq : s.queue b = c :: cs) (hf : c.failed = false) :
    ∃ done w, L.BlockRun b (L.cell s₀.pol b) (s₀.completed b) s done w := by
  refine (h.blocks b).resolve_left ?_
  rintro ⟨c', cs', hq', hf'⟩
  rw [hq] at hq'
  rw [(List.cons.inj hq').1, hf'] at hf
  cases hf

theorem Runs.init (h : L.Ok s.pol) (hq : ∀ b, s.queue b = []) : L.Runs s s where
  ok := h
  blocks := by
    intro b
    refine Or.inr ⟨[], L.cell s.pol b, (append_nil _).symm, .nil, ?_⟩
    rw [hq]
    rfl

theorem Runs.accept {req : BlockRequest bs} {scratch : Bytes} (h : L.Runs s₀ s) :
    L.Runs s₀ (s.accept req scratch) where
  ok := L.map_ok h.ok
  blocks := by
    intro b
    have hcell : L.cell (s.accept req scratch).pol b = L.cell s.pol b := L.map_cell b h.ok
    by_cases hbr : b = req.block
    · subst hbr
      have hqueue : (s.accept req scratch).queue req.block
          = s.queue req.block ++ [Serial.chainOf req scratch s.pol] := update_self ..
      rcases h.blocks req.block with ⟨c, cs, hq, hf⟩ | ⟨done, w, hb⟩
      · -- behind a chain that has failed, it will never get its turn
        exact Or.inl ⟨c, _, by rw [hqueue, hq]; rfl, hf⟩
      · refine Or.inr ⟨done, w, hb.completed, hb.settles, ?_⟩
        rw [hcell, hqueue]
        exact hb.underWay.append ⟨rfl, L.map_ops h.ok, rfl⟩
    · exact h.other hcell (update_of_ne hbr _ _) rfl

theorem Runs.send (h : L.Runs s₀ s) (hq : s.queue b = c :: cs) (hf : c.failed = false)
    (ho : c.ops = op :: ops) : L.Runs s₀ (s.send b c cs op ops) := by
  obtain ⟨done, w, hb⟩ := h.alive hq hf
  have hu := hb.underWay
  rw [hq] at hu
  have hblock : c.req.block = b := by
    obtain ⟨⟨sent, hsent⟩, _⟩ := hu
    exact hsent.1
  have hmem := hu.mem ho
  refine ⟨L.send_ok h.ok hmem, ?_⟩
  intro b'
  by_cases hbb : b' = b
  · subst hbb
    refine Or.inr ⟨done, w, hb.completed, hb.settles, ?_⟩
    -- what the policy does is what the cell does, so the chain is one operation further on
    have hself := L.send_self (m := c.bufs) h.ok hmem
    rw [hblock] at hself
    have hu' := hu.send ho
    rw [← hself] at hu'
    simp only [Serial.send, update_self]
    exact hu'
  · have hcell : L.cell (s.send b c cs op ops).pol b' = L.cell s.pol b' :=
      L.send_other h.ok hmem (hblock ▸ hbb)
    exact h.other hcell (update_of_ne hbb _ _) rfl

theorem Runs.fail {r : Int} (h : L.Runs s₀ s) : L.Runs s₀ (s.fail b r c cs) where
  ok := h.ok
  blocks := by
    intro b'
    by_cases hbb : b' = b
    · subst hbb
      exact Or.inl ⟨_, cs, update_self .., rfl⟩
    · exact h.other rfl (update_of_ne hbb _ _) (update_of_ne hbb _ _)

theorem Runs.finish (h : L.Runs s₀ s) (hq : s.queue b = c :: cs) (hf : c.failed = false)
    (ho : c.ops = []) : L.Runs s₀ (s.finish b c cs) where
  ok := h.ok
  blocks := by
    intro b'
    by_cases hbb : b' = b
    · subst hbb
      obtain ⟨done, w, hb⟩ := h.alive hq hf
      have hu := hb.underWay
      rw [hq] at hu
      obtain ⟨hsettles, hunder⟩ := hu.finish ho hb.settles
      refine Or.inr ⟨_, _, ?_, hsettles, ?_⟩
      · simp only [Serial.finish, update_self]
        rw [hb.completed, append_assoc]
      · simp only [Serial.finish, update_self]
        exact hunder
    · exact h.other rfl (update_of_ne hbb _ _) (update_of_ne hbb _ _)

/-! ## Whole runs -/

section Reachable

variable {ok : Serial P → Serial.Act bs → Prop}

theorem runs_reachable (hok : L.Ok s₀.pol) (hq : ∀ b, s₀.queue b = [])
    (hr : Reachable Serial.step ok s₀ s) : L.Runs s₀ s := by
  refine hr.invariant (I := L.Runs s₀) (Runs.init hok hq) ?_
  intro s a s' h _ hs
  rcases Serial.step_cases hs with ⟨req, scratch, rfl, _, rfl⟩
    | ⟨b, c, cs, op, ops, rfl, hq, hf, ho, _, rfl⟩ | ⟨b, r, c, cs, op, ops, rfl, _, _, _, _, _, rfl⟩
    | ⟨b, c, cs, rfl, hq, hf, ho, rfl⟩
  · exact h.accept
  · exact h.send hq hf ho
  · exact h.fail
  · exact h.finish hq hf ho

theorem settles_of_rest (hok : L.Ok s₀.pol) (hq : ∀ b, s₀.queue b = [])
    (hr : Reachable Serial.step ok s₀ s) (hrest : s.queue b = []) :
    ∃ done, s.completed b = s₀.completed b ++ done
      ∧ L.Settles b (L.cell s₀.pol b) done (L.cell s.pol b) := by
  rcases (runs_reachable hok hq hr).blocks b with ⟨c, cs, hc, _⟩ | ⟨done, w, h⟩
  · rw [hrest] at hc
    cases hc
  · have hu := h.underWay
    rw [hrest] at hu
    obtain rfl : L.cell s.pol b = w := hu
    exact ⟨done, h.completed, h.settles⟩

theorem settles_reachable (hok : L.Ok s₀.pol) (hq : ∀ b, s₀.queue b = [])
    (hr : Reachable Serial.step ErrorFree s₀ s) (b : Nat) :
    ∃ done w, s.completed b = s₀.completed b ++ done ∧ L.Settles b (L.cell s₀.pol b) done w := by
  rcases (runs_reachable hok hq hr).blocks b with ⟨c, cs, hc, hf⟩ | ⟨done, w, h⟩
  · have halive := Serial.alive_reachable (by simp [hq]) hr b c (by rw [hc]; simp)
    rw [hf] at halive
    cases halive
  · exact ⟨done, w, h.completed, h.settles⟩

end Reachable

end LocalPolicy

end Proof

end HDCS
