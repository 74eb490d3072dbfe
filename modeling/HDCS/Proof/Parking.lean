import HDCS.Core.TierPolicy
import HDCS.Proof.Simulation

/-!
# Requests parked behind a discard

`process_request` leaves a request on `block_request_list` while its block is being
discarded, and looks at it again the next time some request is processed. Two
things are expected of this: that the requests of a block are mapped in the order
they arrived in, and that none stays on the list for good.

Neither holds as it is. `in_discard_process` is lowered by a worker at any moment.
If that happens between two rounds of one scan, the scan has left one request of
the block behind and maps a later one. If it happens after the last scan, nothing
looks at the list again.

Each has the condition it needs, on the steps that lower the flag alone:
**in a run in which the flag of a block is not lowered in the middle of that
block's requests, they are mapped in the order they arrived in** (the invariant is
`InLine`), and **in a run in which it is lowered only while nothing of the block is
parked, or another request is waiting, nothing is left on the list when the core
comes to rest** (`Attended`, with `Releasing` for what a raised flag promises).
-/

namespace HDCS.Proof

open Lib HDCSCore CachePolicy Function Lib.Machine List

variable {n bs : Nat}

/-! ## The flag -/

/--
A policy that raises `in_discard_process` only for the block it maps, and only
with a chain that lowers it again; nothing but `ReleaseDiscardBlock` does that.
-/
structure GuardedPolicy (n bs : Nat) extends Policy n bs where
  map_flag : ∀ req s,
    inDiscardProcess (map req s).2 = inDiscardProcess s
    ∨ inDiscardProcess (map req s).2 = update (inDiscardProcess s) req.block true
      ∧ BlockOp.releaseDiscardBlock ∈ (map req s).1
  send_flag : ∀ req op x, inDiscardProcess (send req op x).2
    = if releases op then update (inDiscardProcess x.2) req.block false else inDiscardProcess x.2

theorem cache_map_flag (cfg : CacheConfig) (req : BlockRequest cfg.blockSize)
    (s : CacheState n) :
    (CachePolicy.map cfg req s).2.inDiscardProcess = s.inDiscardProcess
    ∨ (CachePolicy.map cfg req s).2.inDiscardProcess
        = update s.inDiscardProcess req.block true
      ∧ BlockOp.releaseDiscardBlock ∈ (CachePolicy.map cfg req s).1 := by
  unfold CachePolicy.map
  cases req.ioType with
  | read =>
    dsimp only
    split
    · exact Or.inl rfl
    · split <;> exact Or.inl rfl
  | write =>
    dsimp only
    split
    · exact Or.inl rfl
    · split
      · exact Or.inl rfl
      · split <;> exact Or.inl rfl
  | flush => dsimp only; split <;> exact Or.inl rfl
  | discard =>
    dsimp only
    split
    · exact Or.inr ⟨rfl, by simp [CachePolicy.discard, dropEntry]⟩
    · exact Or.inr ⟨rfl, by simp⟩
  | demoteCache =>
    dsimp only
    split
    · exact Or.inr ⟨rfl, by simp [demote, dropEntry]⟩
    · exact Or.inl rfl
  | promote => exact Or.inl rfl

abbrev guardedCache (cfg : CacheConfig) : GuardedPolicy cfg.entriesCount cfg.blockSize where
  toPolicy := policy cfg
  map_flag := cache_map_flag cfg
  send_flag := fun _ _ _ => send_inDiscardProcess

theorem tier_map_flag (cfg : TierConfig) (req : BlockRequest cfg.blockSize) (s : TierState n) :
    (TierPolicy.map cfg req s).2.inDiscardProcess = s.inDiscardProcess
    ∨ (TierPolicy.map cfg req s).2.inDiscardProcess = update s.inDiscardProcess req.block true
      ∧ BlockOp.releaseDiscardBlock ∈ (TierPolicy.map cfg req s).1 := by
  unfold TierPolicy.map
  dsimp only
  split
  · exact Or.inl rfl
  · cases req.ioType with
    | read | write => dsimp only; split <;> exact Or.inl rfl
    | discard => exact Or.inr ⟨rfl, by simp [TierPolicy.discard]⟩
    | _ => exact Or.inl rfl

theorem tier_send_flag (cfg : TierConfig) (req : BlockRequest cfg.blockSize)
    (op : BlockOp n) (x : Bufs × TierState n) :
    (TierPolicy.send cfg req op x).2.inDiscardProcess
      = if releases op then update x.2.inDiscardProcess req.block false
        else x.2.inDiscardProcess := by
  cases op with
  | flushBlockToBackend id e d => simp only [TierPolicy.send]; split <;> rfl
  | _ => rfl

abbrev guardedTier (cfg : TierConfig) : GuardedPolicy cfg.blocksCount cfg.blockSize where
  toPolicy := TierPolicy.policy cfg
  map_flag := tier_map_flag cfg
  send_flag := tier_send_flag cfg

def lowers {P : Policy n bs} (f : HDCSCore P) : HDCSCore.Act → Option Nat
  | .work i =>
    match f.tasks[i]? with
    | some (.send p) =>
      if f.opAt p = some .releaseDiscardBlock then some (f.blockOf p) else none
    | _ => none
  | _ => none

theorem releases_iff {op : BlockOp n} : releases op = true ↔ op = .releaseDiscardBlock := by
  cases op <;> simp [releases]

variable {P : GuardedPolicy n bs} {hbs : 0 < bs} {f f' : HDCSCore P.toPolicy}
  {a : HDCSCore.Act} {b : Nat}

theorem flag_of_step (hs : f.step hbs a = some f') (hb : P.inDiscardProcess f.pol b = true) :
    P.inDiscardProcess f'.pol b = true ∨ lowers f a = some b := by
  cases step_moves hs with
  | map scratch req rest hsc hu hd =>
    left
    show P.inDiscardProcess (f.toWorkers.mapBlock req scratch).pol b = true
    rw [Workers.mapBlock_pol]
    rcases P.map_flag req f.pol with h | ⟨h, _⟩
    · rw [h]; exact hb
    · rw [h]
      by_cases he : b = req.block
      · subst he; rw [update_self]
      · rw [update_of_ne he]; exact hb
  | send i p op ht hop ha =>
    show P.inDiscardProcess (P.send (f.reqOf p.chain) op (f.bufs p.chain, f.pol)).2 b = true ∨ _
    rw [P.send_flag]
    by_cases hr : releases op = true
    · rw [if_pos hr]
      by_cases he : b = f.blockOf p
      · right
        rw [releases_iff.mp hr] at hop
        simp [lowers, ht, hop, he]
      · left
        exact (update_of_ne he _ _).trans hb
    · left
      rw [if_neg hr]; exact hb
  | locked i p ht hop =>
    left
    show P.inDiscardProcess (f.toWorkers.lockedSection i p).pol b = true
    rw [Workers.lockedSection_pol]; exact hb
  | _ => exact Or.inl hb

/-! ## Order of arrival -/

/-- No flag is lowered between two requests of its block that the scan has on both sides. -/
def OrderSafe {P : Policy n bs} (f : HDCSCore P) (a : HDCSCore.Act) : Prop :=
  ∀ b ∈ lowers f a, (∀ r ∈ f.skipped, r.block ≠ b) ∨ ∀ r ∈ f.unscanned, r.block ≠ b

instance {P : Policy n bs} (f : HDCSCore P) (a : HDCSCore.Act) : Decidable (OrderSafe f a) :=
  inferInstanceAs (Decidable (∀ b ∈ lowers f a, _ ∨ _))

structure InLine {P : Policy n bs} (f : HDCSCore P) (b : Nat) : Prop where
  line : f.mapped b ++ (f.skipped ++ f.unscanned).filter (·.block = b) = f.arrived b
  heldBack : (∀ r ∈ f.skipped, r.block ≠ b) ∨ (∀ r ∈ f.unscanned, r.block ≠ b)
    ∨ P.inDiscardProcess f.pol b = true

theorem InLine.processRequest {r : Request} {g : HDCSCore P.toPolicy}
    (hg : g = f.processRequest hbs r) (h : InLine f b) : InLine g b := by
  subst hg
  refine ⟨?_, Or.inl fun _ hr => absurd hr (by simp [HDCSCore.processRequest])⟩
  show f.mapped b ++ ([] ++ (f.skipped ++ f.unscanned ++ _)).filter _ = f.arrived b ++ _
  rw [← h.line, nil_append, filter_append, append_assoc]

theorem InLine.quiet (h : InLine f b) (hsafe : OrderSafe f a) (hs : f.step hbs a = some f')
    (hsk : f'.skipped = f.skipped) (hun : f'.unscanned = f.unscanned)
    (hma : f'.mapped b = f.mapped b) (har : f'.arrived b = f.arrived b) : InLine f' b := by
  refine ⟨by rw [hsk, hun, hma, har]; exact h.line, ?_⟩
  rw [hsk, hun]
  rcases h.heldBack with h' | h' | h'
  · exact Or.inl h'
  · exact Or.inr (Or.inl h')
  · rcases flag_of_step hs h' with h'' | hl
    · exact Or.inr (Or.inr h'')
    · rcases hsafe b hl with h'' | h''
      · exact Or.inl h''
      · exact Or.inr (Or.inl h'')

theorem InLine.step (h : InLine f b) (hsafe : OrderSafe f a) (hs : f.step hbs a = some f') :
    InLine f' b := by
  have hflag : P.inDiscardProcess f.pol b = true →
      P.inDiscardProcess f'.pol b = true ∨ lowers f a = some b := flag_of_step hs
  cases step_moves hs with
  | submit r | scanEnd hsc hu | send i p op ht hop ha | notify i p callNext ht
  | fail i r p op ht hop hf hr => exact h.quiet hsafe hs rfl rfl rfl rfl
  | process r q hq hsc =>
    have h' : InLine { f with requestQueue := q } b := ⟨h.line, h.heldBack⟩
    exact h'.processRequest rfl
  | queueIo r hsc => exact h.processRequest rfl
  | skip scratch req rest hsc hu hd =>
    refine ⟨?_, ?_⟩
    · show f.mapped b ++ (f.skipped ++ [req] ++ rest).filter _ = f.arrived b
      rw [← h.line, hu, append_assoc]; rfl
    · by_cases hb : req.block = b
      · exact Or.inr (Or.inr (by rw [← hb]; exact hd))
      · rcases h.heldBack with h' | h' | h'
        · refine Or.inl fun r hr => ?_
          rcases mem_append.mp hr with hr | hr
          · exact h' r hr
          · rw [mem_singleton.mp hr]; exact hb
        · exact Or.inr (Or.inl fun r hr => h' r (by rw [hu]; exact mem_cons_of_mem _ hr))
        · exact Or.inr (Or.inr h')
  | map scratch req rest hsc hu hd =>
    have hline := h.line
    rw [hu] at hline
    by_cases hb : b = req.block
    · subst hb
      -- the flag is down, so nothing of the block was left behind
      have hnone : ∀ r ∈ f.skipped, r.block ≠ req.block := by
        rcases h.heldBack with h' | h' | h'
        · exact h'
        · exact absurd rfl (h' req (by rw [hu]; exact mem_cons_self))
        · rw [hd] at h'; cases h'
      have hfilter : f.skipped.filter (·.block = req.block) = [] :=
        filter_eq_nil_iff.mpr fun r hr => by simpa using hnone r hr
      refine ⟨?_, Or.inl hnone⟩
      show (f.toWorkers.mapBlock req scratch).mapped req.block ++ _ = f.arrived req.block
      rw [Workers.mapBlock_mapped, update_self, ← hline, filter_append,
        filter_append, hfilter, filter_cons_of_pos (by simp), append_assoc]
      rfl
    · refine ⟨?_, ?_⟩
      · show (f.toWorkers.mapBlock req scratch).mapped b ++ _ = f.arrived b
        rw [Workers.mapBlock_mapped, update_of_ne hb, ← hline, filter_append,
          filter_append, filter_cons_of_neg (by simpa using Ne.symm hb)]
      · rcases h.heldBack with h' | h' | h'
        · exact Or.inl h'
        · exact Or.inr (Or.inl fun r hr => h' r (by rw [hu]; exact mem_cons_of_mem _ hr))
        · rcases hflag h' with h'' | hl
          · exact Or.inr (Or.inr h'')
          · cases hl
  | locked i p ht hop =>
    exact h.quiet hsafe hs rfl rfl (congrFun (Workers.lockedSection_mapped i p _) b) rfl

theorem InLine.reachable {pol : P.State}
    (hr : Reachable (HDCSCore.step hbs) OrderSafe (HDCSCore.start pol) f) (b : Nat) :
    InLine f b :=
  hr.invariant (I := fun f => InLine f b)
    ⟨rfl, Or.inl fun _ hr => absurd hr (by simp [HDCSCore.start])⟩
    fun _ _ _ h hsafe hs => h.step hsafe hs

/-- **The requests of a block are mapped in the order they arrived in.** -/
theorem mapped_prefix_arrived (P : GuardedPolicy n bs) (hbs : 0 < bs) (pol : P.State)
    (f : HDCSCore P.toPolicy)
    (hr : Reachable (HDCSCore.step hbs) OrderSafe (HDCSCore.start pol) f) (b : Nat) :
    f.mapped b <+: f.arrived b :=
  ⟨_, (InLine.reachable hr b).line⟩

def untilRelease : List HDCSCore.Act :=
  [.queueIo (blockRange .read 0), .scan (fun _ => 0), .scanEnd,
    .work 0, .work 0, .work 0, .work 0, .work 0, .work 0,
    .queueIo (blockRange .demoteCache 0), .scan (fun _ => 0), .scanEnd,
    .work 0, .work 0, .work 0, .work 0, .work 0]

/-- The flag is lowered between two scans: the parked READ goes first, then the WRITE. -/
theorem parked_read_first : ∃ f : HDCSCore (policy (smallCache 0 .writeBack)),
    f.mapped 0 <+: f.arrived 0
      ∧ (f.mapped 0).map BlockRequest.ioType = [.read, .demoteCache, .read, .write] := by
  have hrun : (run (HDCSCore.step (smallCache 0 .writeBack).blockSize_pos) OrderSafe
      (smallCore 0 .writeBack) (untilRelease ++
        [.queueIo (blockRange .read 0), .scan (fun _ => 0), .scanEnd, .work 0,
          .queueIo (blockRange .write 0), .scan (fun _ => 0), .scan (fun _ => 0)])).map
      (fun f => decide ((f.mapped 0).map BlockRequest.ioType
        = [.read, .demoteCache, .read, .write])) = some true := by decide +kernel
  obtain ⟨f, hr, hp⟩ := Reachable.of_run_decide hrun
  exact ⟨f, mapped_prefix_arrived (guardedCache _) _ _ f hr 0, hp⟩

/-- The flag is lowered in the middle of a scan: the WRITE is mapped and the READ is not. -/
theorem overtaken_during_scan : ∃ f : HDCSCore (policy (smallCache 0 .writeBack)),
    Reachable (HDCSCore.step (smallCache 0 .writeBack).blockSize_pos) NoFailure
      (smallCore 0 .writeBack) f
    ∧ ¬ f.mapped 0 <+: f.arrived 0 := by
  have hrun : (run (HDCSCore.step (smallCache 0 .writeBack).blockSize_pos) NoFailure
      (smallCore 0 .writeBack) (untilRelease ++
        [.queueIo (blockRange .read 0), .scan (fun _ => 0), .scanEnd,
          .queueIo (blockRange .write 0), .scan (fun _ => 0), .work 0, .scan (fun _ => 0)])).map
      (fun f => decide ((f.mapped 0).map BlockRequest.ioType = [.read, .demoteCache, .write]
        ∧ (f.arrived 0).map BlockRequest.ioType = [.read, .demoteCache, .read, .write]))
      = some true := by decide +kernel
  obtain ⟨f, hr, hm, ha⟩ := Reachable.of_run_decide hrun
  refine ⟨f, hr, fun h => ?_⟩
  have h' := h.map BlockRequest.ioType
  rw [hm, ha] at h'
  exact absurd h' (by decide)

/-! ## Requests left on the list -/

/-- No flag is lowered while a request of its block is parked, unless another request waits. -/
def WakeSafe {P : Policy n bs} (f : HDCSCore P) (a : HDCSCore.Act) : Prop :=
  ∀ b ∈ lowers f a, (∀ r ∈ f.skipped, r.block ≠ b) ∨ f.requestQueue ≠ []

instance {P : Policy n bs} (f : HDCSCore P) (a : HDCSCore.Act) : Decidable (WakeSafe f a) :=
  inferInstanceAs (Decidable (∀ b ∈ lowers f a, _ ∨ _))

structure Attended {P : Policy n bs} (f : HDCSCore P) : Prop where
  parked : ∀ r ∈ f.skipped, P.inDiscardProcess f.pol r.block = true ∨ f.requestQueue ≠ []
  scanned : f.scanning = false → f.unscanned = []

theorem Attended.quiet (h : Attended f) (hsafe : WakeSafe f a) (hs : f.step hbs a = some f')
    (hsk : f'.skipped = f.skipped) (hq : f'.requestQueue = f.requestQueue)
    (hsc : f'.scanning = false → f'.unscanned = []) : Attended f' := by
  refine ⟨?_, hsc⟩
  intro r hr
  rw [hsk] at hr
  rw [hq]
  rcases h.parked r hr with h' | h'
  · rcases flag_of_step hs h' with h'' | hl
    · exact Or.inl h''
    · rcases hsafe _ hl with h'' | h''
      · exact absurd rfl (h'' r hr)
      · exact Or.inr h''
  · exact Or.inr h'

theorem Attended.processRequest {r : Request} : Attended (f.processRequest hbs r) :=
  ⟨fun _ hr => absurd hr (by simp [HDCSCore.processRequest]),
    fun h => absurd h (by simp [HDCSCore.processRequest])⟩

theorem Attended.step (h : Attended f) (hsafe : WakeSafe f a) (hs : f.step hbs a = some f') :
    Attended f' := by
  cases step_moves hs with
  | submit r => exact ⟨fun _ _ => Or.inr (by simp), h.scanned⟩
  | process r q hq hsc | queueIo r hsc => exact .processRequest
  | skip scratch req rest hsc hu hd =>
    refine ⟨?_, fun h' => by rw [show f.scanning = false from h'] at hsc; simp at hsc⟩
    intro r hr
    rcases mem_append.mp hr with hr | hr
    · exact h.parked r hr
    · rw [mem_singleton.mp hr]; exact Or.inl hd
  | map scratch req rest hsc hu hd =>
    refine h.quiet hsafe hs rfl rfl fun h' => ?_
    rw [show f.scanning = false from h'] at hsc
    cases hsc
  | scanEnd hsc hu => exact h.quiet hsafe hs rfl rfl fun _ => hu
  | send i p op ht hop ha | locked i p ht hop | notify i p callNext ht
  | fail i r p op ht hop hf hr => exact h.quiet hsafe hs rfl rfl h.scanned

structure Releasing {P : Policy n bs} (s : Serial P) (b : Nat) : Prop where
  own : ∀ c ∈ s.queue b, c.req.block = b
  pending : P.inDiscardProcess s.pol b = true → ∃ c ∈ s.queue b, BlockOp.releaseDiscardBlock ∈ c.ops

section Serial

variable {s s' : Serial P.toPolicy} {act : Serial.Act bs}

theorem Releasing.frame (h : Releasing s b) (hq : s'.queue b = s.queue b)
    (hf : P.inDiscardProcess s'.pol b = true → P.inDiscardProcess s.pol b = true) :
    Releasing s' b :=
  ⟨by rw [hq]; exact h.own, fun hb => by rw [hq]; exact h.pending (hf hb)⟩

theorem Releasing.accept {req : BlockRequest bs} {scratch : Bytes} (h : Releasing s b) :
    Releasing (s.accept req scratch) b := by
  have hflag := P.map_flag req s.pol
  by_cases hb : b = req.block
  · subst hb
    have hqueue : (s.accept req scratch).queue req.block
        = s.queue req.block ++ [Serial.chainOf req scratch s.pol] := update_self _ _ _
    refine ⟨?_, ?_⟩
    · intro c hc
      rw [hqueue] at hc
      rcases mem_append.mp hc with hc | hc
      · exact h.own c hc
      · rw [mem_singleton.mp hc]; rfl
    · intro hup
      rw [hqueue]
      rcases hflag with hsame | ⟨_, hrel⟩
      · obtain ⟨c, hc, hrel⟩ := h.pending ((congrFun hsame req.block).symm.trans hup)
        exact ⟨c, mem_append_left _ hc, hrel⟩
      · exact ⟨_, mem_append_right _ (mem_singleton.mpr rfl), hrel⟩
  · refine h.frame (update_of_ne hb _ _) fun hup => ?_
    rcases hflag with hsame | ⟨hraised, _⟩
    · exact (congrFun hsame b).symm.trans hup
    · have hsame := (congrFun hraised b).trans (update_of_ne hb _ _)
      exact hsame.symm.trans hup

theorem Releasing.send {b' : Nat} {c : Chain n bs} {cs : List (Chain n bs)} {op : BlockOp n}
    {ops : List (BlockOp n)} (h : ∀ b, Releasing s b) (hq : s.queue b' = c :: cs)
    (hops : c.ops = op :: ops) : Releasing (s.send b' c cs op ops) b := by
  have hown : c.req.block = b' := (h b').own c (by rw [hq]; exact mem_cons_self)
  have hflag := P.send_flag c.req op (c.bufs, s.pol)
  rw [hown] at hflag
  -- where the flag is up afterwards it was up before, and this was not its release
  have hup : P.inDiscardProcess (s.send b' c cs op ops).pol b = true →
      P.inDiscardProcess s.pol b = true ∧ (b = b' → op ≠ .releaseDiscardBlock) := by
    intro hup
    have hup' := (congrFun hflag b).symm.trans hup
    by_cases hr : releases op = true
    · rw [if_pos hr] at hup'
      by_cases hb : b = b'
      · subst hb; rw [update_self] at hup'; cases hup'
      · rw [update_of_ne hb] at hup'
        exact ⟨hup', fun he => absurd he hb⟩
    · rw [if_neg hr] at hup'
      exact ⟨hup', fun _ he => hr (releases_iff.mpr he)⟩
  by_cases hb : b = b'
  · subst hb
    have hqueue : (s.send b c cs op ops).queue b = { c with
        ops := ops, bufs := (P.send c.req op (c.bufs, s.pol)).1 } :: cs :=
      update_self _ _ _
    refine ⟨?_, ?_⟩
    · intro c' hc
      rw [hqueue] at hc
      rcases mem_cons.mp hc with rfl | hc
      · exact hown
      · exact (h b).own c' (by rw [hq]; exact mem_cons_of_mem _ hc)
    · intro hup'
      obtain ⟨hbefore, hne⟩ := hup hup'
      obtain ⟨c', hc, hrel⟩ := (h b).pending hbefore
      rw [hqueue]
      rw [hq] at hc
      rcases mem_cons.mp hc with rfl | hc
      · rw [hops] at hrel
        rcases mem_cons.mp hrel with he | hrel
        · exact absurd he.symm (hne rfl)
        · exact ⟨_, mem_cons_self, hrel⟩
      · exact ⟨c', mem_cons_of_mem _ hc, hrel⟩
  · exact (h b).frame (update_of_ne hb _ _) fun hup' => (hup hup').1

theorem Releasing.fail {b' : Nat} {r : Int} {c : Chain n bs} {cs : List (Chain n bs)}
    (h : Releasing s b) (hq : s.queue b' = c :: cs) : Releasing (s.fail b' r c cs) b := by
  by_cases hb : b = b'
  · subst hb
    have hqueue : (s.fail b r c cs).queue b = { c with failed := true } :: cs :=
      update_self _ _ _
    obtain ⟨hown, hpending⟩ := h
    rw [hq] at hown hpending
    refine ⟨?_, ?_⟩
    · rw [hqueue]
      exact forall_mem_cons.mpr (forall_mem_cons.mp hown)
    · intro hup
      rw [hqueue]
      obtain ⟨c', hc, hrel⟩ := hpending hup
      rcases mem_cons.mp hc with rfl | hc
      · exact ⟨_, mem_cons_self, hrel⟩
      · exact ⟨c', mem_cons_of_mem _ hc, hrel⟩
  · exact h.frame (update_of_ne hb _ _) id

theorem Releasing.finish {b' : Nat} {c : Chain n bs} {cs : List (Chain n bs)}
    (h : Releasing s b) (hq : s.queue b' = c :: cs) (hops : c.ops = []) :
    Releasing (s.finish b' c cs) b := by
  by_cases hb : b = b'
  · subst hb
    have hqueue : (s.finish b c cs).queue b = cs := update_self _ _ _
    obtain ⟨hown, hpending⟩ := h
    rw [hq] at hown hpending
    refine ⟨?_, ?_⟩
    · rw [hqueue]
      exact (forall_mem_cons.mp hown).2
    · intro hup
      rw [hqueue]
      obtain ⟨c', hc, hrel⟩ := hpending hup
      rcases mem_cons.mp hc with rfl | hc
      · rw [hops] at hrel; cases hrel
      · exact ⟨c', hc, hrel⟩
  · exact h.frame (update_of_ne hb _ _) id

theorem Releasing.step (h : ∀ b, Releasing s b) (hs : s.step act = some s') :
    ∀ b, Releasing s' b := by
  intro b
  rcases Serial.step_cases hs with ⟨req, scratch, rfl, _, rfl⟩
    | ⟨b', c, cs, op, ops, rfl, hq, _, hops, _, rfl⟩
    | ⟨b', r, c, cs, op, ops, rfl, hq, _, _, _, _, rfl⟩
    | ⟨b', c, cs, rfl, hq, _, hops, rfl⟩
  · exact (h b).accept
  · exact Releasing.send h hq hops
  · exact (h b).fail hq
  · exact (h b).finish hq hops

end Serial

theorem inProcess_of_flag {pol : P.State} {ok : HDCSCore P.toPolicy → HDCSCore.Act → Prop}
    (hpol : ∀ b, P.inDiscardProcess pol b = false)
    (hr : Reachable (HDCSCore.step hbs) ok (HDCSCore.start pol) f)
    (hb : P.inDiscardProcess f.pol b = true) : f.inProcess b = true := by
  obtain ⟨s, h, hs⟩ : ∃ s, HandOver f.toWorkers s
      ∧ Reachable Serial.step (fun _ _ => True) (Serial.start pol) s :=
    HandOver.reachable (fun _ _ _ _ _ _ _ => trivial) (handOver_start pol) hr
  have hrel : ∀ b, Releasing s b := by
    refine hs.invariant (I := fun s => ∀ b, Releasing s b) ?_
      fun _ _ _ h _ hs => Releasing.step h hs
    refine fun b => ⟨fun _ hc => absurd hc (by simp [Serial.start]), fun hup => ?_⟩
    have hdown : P.inDiscardProcess pol b = true := hup
    rw [hpol b] at hdown
    cases hdown
  obtain ⟨c, hc, _⟩ := (hrel b).pending (by rw [h.pol]; exact hb)
  have hst := h.stage b
  generalize s.queue b = q at hst hc
  cases hst with
  | drained _ => cases hc
  | atOp done k ks i failed hat => exact hat.inProcess

/-- **When the core comes to rest, nothing is left on `block_request_list`.** -/
theorem none_stranded (P : GuardedPolicy n bs) (hbs : 0 < bs) (pol : P.State)
    (hpol : ∀ b, P.inDiscardProcess pol b = false) (f : HDCSCore P.toPolicy)
    (hr : Reachable (HDCSCore.step hbs) WakeSafe (HDCSCore.start pol) f)
    (hqueue : f.requestQueue = []) (hscan : f.scanning = false)
    (hrest : ∀ b, f.inProcess b = false) : f.skipped ++ f.unscanned = [] := by
  have h : Attended f := hr.invariant (I := Attended)
    ⟨fun _ hr => absurd hr (by simp [HDCSCore.start]), fun _ => rfl⟩
    fun _ _ _ h hsafe hs => h.step hsafe hs
  have hskipped : f.skipped = [] := by
    refine eq_nil_iff_forall_not_mem.mpr fun r hm => ?_
    rcases h.parked r hm with hup | hne
    · have hin := inProcess_of_flag hpol hr hup
      rw [hrest] at hin
      cases hin
    · exact hne hqueue
  rw [hskipped, h.scanned hscan]; rfl

/-- A READ is parked, and the WRITE that comes after it takes it along. -/
theorem parked_read_mapped : ∃ f : HDCSCore (policy (smallCache 0 .writeBack)),
    f.skipped ++ f.unscanned = []
      ∧ (f.mapped 0).map BlockRequest.ioType = [.read, .demoteCache, .read, .write] := by
  have hrun : (run (HDCSCore.step (smallCache 0 .writeBack).blockSize_pos)
      (fun f a => WakeSafe f a ∧ NoFailure f a)
      (smallCore 0 .writeBack) (untilRelease ++
        [.submit (blockRange .read 0), .process, .scan (fun _ => 0), .scanEnd,
          .submit (blockRange .write 0), .work 0, .process, .scan (fun _ => 0),
          .scan (fun _ => 0), .scanEnd] ++ List.replicate 13 (.work 0))).map
      (fun f => decide ((f.mapped 0).map BlockRequest.ioType
        = [.read, .demoteCache, .read, .write] ∧ f.tasks = [] ∧ f.requestQueue.length = 0
        ∧ f.scanning = false)) = some true := by decide +kernel
  obtain ⟨f, hr, hm, ht, hq, hs⟩ := Reachable.of_run_decide hrun
  refine ⟨f, ?_, hm⟩
  exact none_stranded (guardedCache _) _ _ (fun _ => rfl) f (hr.mono fun _ _ h => h.1)
    (eq_nil_of_length_eq_zero hq) hs (inProcess_of_no_tasks (hr.mono fun _ _ h => h.2) ht)

/-- A READ is parked, the flag is lowered, and no step is left that would look at the READ. -/
theorem read_stranded : ∃ f : HDCSCore (policy (smallCache 0 .writeBack)),
    Reachable (HDCSCore.step (smallCache 0 .writeBack).blockSize_pos) NoFailure
      (smallCore 0 .writeBack) f
    ∧ f.requestQueue = [] ∧ f.scanning = false ∧ f.tasks = [] ∧ (∀ b, f.inProcess b = false)
    ∧ f.skipped ++ f.unscanned ≠ [] := by
  have hrun : (run (HDCSCore.step (smallCache 0 .writeBack).blockSize_pos) NoFailure
      (smallCore 0 .writeBack) (untilRelease ++
        [.submit (blockRange .read 0), .process, .scan (fun _ => 0), .scanEnd,
          .work 0, .work 0, .work 0])).map
      (fun f => decide (f.requestQueue.length = 0 ∧ f.scanning = false ∧ f.tasks = []
        ∧ (f.skipped ++ f.unscanned).length = 1)) = some true := by decide +kernel
  obtain ⟨f, hr, hq, hs, ht, hl⟩ := Reachable.of_run_decide hrun
  refine ⟨f, hr, eq_nil_of_length_eq_zero hq, hs, ht, inProcess_of_no_tasks hr ht, ?_⟩
  intro he
  rw [he] at hl
  cases hl

end HDCS.Proof
