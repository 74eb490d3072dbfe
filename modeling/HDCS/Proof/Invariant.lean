import HDCS.Core.FlatVolume
import HDCS.Lib.Pool
import HDCS.Proof.Chains

/-!
# The invariant of the cache

Between two chains a block is at rest, and what holds of it then depends on
whether it is cached. A `Contract` says what that is, and that every chain which
starts at rest ends at rest. The ownership of slots, the write-back guarantee and
the read-only guarantee are three contracts; this file proves, once for all of
them, that a contract holds along every run.

At any moment the running chain has sent some of its operations, so the block is
not at rest; but it is exactly where those operations take it *from* rest, and
that is what `Running` records. Behind the running chain others wait, each built
for the condition its predecessor will leave (`Waiting`), although at the time
`map` built it the predecessor had not run yet. What makes this sound is that
`block->entry` runs ahead of the chains in a controlled way: it is the condition
the *last* waiting chain leaves, except that a chain which drops the entry only
detaches it when it gets there, and until it is done no request is mapped.

A slot is owned by the block that has its entry, or whose chain is about to give
it back. No slot has two owners, none is owned and free, and none is neither.
-/

namespace HDCS.Proof

open Lib LruList CachePolicy List

variable {n : Nat}

def Cell.run (cfg : CacheConfig) (req : BlockRequest cfg.blockSize) (ops : List (BlockOp n))
    (x : Bufs × Cell) : Bufs × Cell :=
  ops.foldl (fun x op => Cell.send cfg req op x) x

section Run

variable (cfg : CacheConfig) (req : BlockRequest cfg.blockSize) (op : BlockOp n)
  (ops ops' : List (BlockOp n)) (x : Bufs × Cell)

@[simp] theorem Cell.run_nil : Cell.run cfg req ([] : List (BlockOp n)) x = x := rfl

@[simp] theorem Cell.run_cons :
    Cell.run cfg req (op :: ops) x = Cell.run cfg req ops (Cell.send cfg req op x) := rfl

theorem Cell.run_append :
    Cell.run cfg req (ops ++ ops') x = Cell.run cfg req ops' (Cell.run cfg req ops x) :=
  foldl_append

theorem Cell.run_snoc :
    Cell.run cfg req (ops ++ [op]) x = Cell.send cfg req op (Cell.run cfg req ops x) :=
  foldl_append

end Run

structure Cell.Wf (bs : Nat) (v : Cell) : Prop where
  slot : Clipped bs v.slot
  back : Clipped bs v.back

theorem Cell.Wf.send {cfg : CacheConfig} {req : BlockRequest cfg.blockSize} {x : Bufs × Cell}
    (op : BlockOp n) (h : x.2.Wf cfg.blockSize) : (Cell.send cfg req op x).2.Wf cfg.blockSize := by
  have hbs : 0 + cfg.blockSize ≤ cfg.blockSize := by omega
  cases op with
  | writeToBackend d => exact ⟨h.slot, h.back.memcpy req.inBlock⟩
  | writeBlockToCache i d | demoteBlockToCache i => exact ⟨h.slot.memcpy hbs, h.back⟩
  | discardBlockToBackend => exact ⟨h.slot, h.back.memcpy hbs⟩
  | updateCacheMeta st x i => cases st <;> exact ⟨h.slot, h.back⟩
  | updateLRU st e c =>
    cases st with
    | none => exact ⟨h.slot, h.back⟩
    | some e => simp only [Cell.send]; split <;> exact ⟨h.slot, h.back⟩
  | flushBlockToBackend i e d =>
    simp only [Cell.send]
    split
    · exact ⟨h.slot, h.back.memcpy hbs⟩
    · exact h
  | _ => exact ⟨h.slot, h.back⟩

theorem Cell.Wf.run {cfg : CacheConfig} {req : BlockRequest cfg.blockSize} :
    ∀ (ops : List (BlockOp n)) {x : Bufs × Cell}, x.2.Wf cfg.blockSize →
      (Cell.run cfg req ops x).2.Wf cfg.blockSize
  | [], _, h => h
  | op :: ops, _, h => Cell.Wf.run ops (h.send op)

structure Contract (cfg : CacheConfig) (ids : Fin n → UInt32) where
  /-- The requests of the run, with the condition of the block they are mapped in. -/
  Ok : Option (Fin n) → BlockRequest cfg.blockSize → Prop
  /-- What holds at rest of a block whose flat content is the first argument. -/
  Idle : Bytes → Option (Fin n) → Cell → Prop
  /-- Chains lead from rest to rest. -/
  run : ∀ {a req ops a' w m v}, Built cfg ids a req ops a' → Ok a req → Idle w a v →
    v.Wf cfg.blockSize → m.dataPtr = req.data →
    Idle (applyWrite req w) a' (Cell.run cfg req ops (m, v)).2
  /-- An uncached block may be given any unused slot. -/
  attach : ∀ {w v slot}, Idle w none v → Idle w none { v with slot := slot, status := unpromoted }

section Invariant

variable {cfg : CacheConfig} {ids : Fin n → UInt32} (K : Contract cfg ids)

def Running (s : CacheState n) (w : Bytes) (c : Chain n cfg.blockSize) (a : Option (Fin n)) :
    Prop :=
  ∃ (a₀ : Option (Fin n)) (done : List (BlockOp n)) (m : Bufs) (v : Cell),
    Built cfg ids a₀ c.req (done ++ c.ops) a ∧ c.took = Serial.taken a₀ a ∧ K.Ok a₀ c.req
      ∧ K.Idle w a₀ v ∧ v.Wf cfg.blockSize ∧ m.dataPtr = c.req.data
      ∧ c.bufs = (Cell.run cfg c.req done (m, v)).1
      ∧ Shows cfg s c.req.block (Cell.run cfg c.req done (m, v)).2
      ∧ ∀ e ∈ inUse c.ops a, Slot cfg s e (Cell.run cfg c.req done (m, v)).2

inductive Waiting : Option (Fin n) → List (Chain n cfg.blockSize) → Option (Fin n) → Prop where
  | nil {a} : Waiting a [] a
  | cons {a a' a'' c cs} : Built cfg ids a c.req c.ops a' → c.took = Serial.taken a a' →
      K.Ok a c.req → c.bufs.dataPtr = c.req.data →
      (cs ≠ [] → releasesOf c.ops = false) → Waiting a' cs a'' → Waiting a (c :: cs) a''

def allOps {bs : Nat} (q : List (Chain n bs)) : List (BlockOp n) := q.flatMap Chain.ops

def owns {bs : Nat} (q : List (Chain n bs)) (entry : Option (Fin n)) : Option (Fin n) :=
  freesOf (allOps q) <|> entry

structure Busy (s : CacheState n) (b : Nat) (w : Bytes) (c : Chain n cfg.blockSize)
    (cs : List (Chain n cfg.blockSize)) (a z : Option (Fin n)) : Prop where
  running : Running K s w c a
  rest : Rest ids a c.ops
  waiting : Waiting K a cs z
  /-- Nothing waits behind a chain that has still to end the block's discard. -/
  last : cs ≠ [] → releasesOf c.ops = false
  entry : s.entry b = (resetsOf (allOps (c :: cs)) <|> z)
  discard : s.inDiscardProcess b = releasesOf (allOps (c :: cs))
  /-- A detached slot has lost its status. -/
  detached : ∀ e, freesOf c.ops = some e → resetsOf c.ops = none → (s.entries e).status = unpromoted
  /-- A slot that is only to be filled by a waiting chain has no status yet. -/
  unfilled : ∀ e, owns (c :: cs) (s.entry b) = some e → inUse c.ops a = none →
    (s.entries e).status = unpromoted

def AtRest (s : CacheState n) (b : Nat) (w : Bytes) : Prop :=
  ∃ v, K.Idle w (s.entry b) v ∧ v.Wf cfg.blockSize ∧ Shows cfg s b v
    ∧ (∀ e ∈ s.entry b, Slot cfg s e v) ∧ s.inDiscardProcess b = false

def BlockInv (s : CacheState n) (b : Nat) (w : Bytes) : List (Chain n cfg.blockSize) → Prop
  | [] => AtRest K s b w
  | c :: cs => (∀ x ∈ c :: cs, x.req.block = b) ∧ ∃ a z, Busy K s b w c cs a z

end Invariant

def slotOf {cfg : CacheConfig} (s : Serial (policy cfg)) (b : Nat) :
    Option (Fin cfg.entriesCount) := owns (s.queue b) (s.pol.entry b)

def InOrder {bs : Nat} {P : Policy n bs} (s : Serial P) (b : Nat) : Prop :=
  (s.completed b).map Completion.req ++ (s.queue b).map Chain.req = s.accepted b

/-- **The invariant of the cache under a contract.** -/
structure Inv {cfg : CacheConfig} {ids : Fin cfg.entriesCount → UInt32} (K : Contract cfg ids)
    (w₀ : Nat → Bytes) (s : Serial (policy cfg)) : Prop where
  ids : ∀ e, (s.pol.entries e).entryId = ids e
  nodup : ListsNodup s.pol
  order : ∀ b, InOrder s b
  alive : ∀ b, ∀ c ∈ s.queue b, c.failed = false
  blocks : ∀ b, BlockInv K s.pol b (flat (w₀ b) ((s.completed b).map Completion.req)) (s.queue b)
  /-- Every slot is in `free_lru` or owned by exactly one block. -/
  pool : Pool (slotOf s) s.pol.freeLru
  freeStatus : ∀ e ∈ s.pol.freeLru, (s.pol.entries e).status = unpromoted

def Contract.Allows {cfg : CacheConfig} {ids : Fin cfg.entriesCount → UInt32}
    (K : Contract cfg ids) (s : Serial (policy cfg)) : Serial.Act cfg.blockSize → Prop
  | .accept req _ => K.Ok (s.pol.entry req.block) req
  | .fail _ _ => False
  | _ => True

/-! ## Bookkeeping -/

section Bookkeeping

variable {bs : Nat}

theorem allOps_cons (c : Chain n bs) (cs : List (Chain n bs)) :
    allOps (c :: cs) = c.ops ++ allOps cs := flatMap_cons

theorem allOps_snoc (cs : List (Chain n bs)) (c : Chain n bs) :
    allOps (cs ++ [c]) = allOps cs ++ c.ops := by
  unfold allOps
  rw [flatMap_append, flatMap_singleton]

theorem freesOf_cons (op : BlockOp n) (ops : List (BlockOp n)) :
    freesOf (op :: ops) = (frees op <|> freesOf ops) := by
  unfold freesOf
  rw [findSome?_cons]
  cases frees op <;> rfl

theorem resetsOf_cons (op : BlockOp n) (ops : List (BlockOp n)) :
    resetsOf (op :: ops) = (resets op <|> resetsOf ops) := by
  unfold resetsOf
  rw [findSome?_cons]
  cases resets op <;> rfl

theorem releasesOf_cons (op : BlockOp n) (ops : List (BlockOp n)) :
    releasesOf (op :: ops) = (releases op || releasesOf ops) := any_cons

theorem Rest.quiet {ids : Fin n → UInt32} {a : Option (Fin n)} {ops : List (BlockOp n)}
    (h : Rest ids a ops) (hr : releasesOf ops = false) :
    freesOf ops = none ∧ resetsOf ops = none := by
  have hf : freesOf ops = none := by
    cases hf : freesOf ops with
    | none => rfl
    | some e => rw [h.releasesOf_of_freesOf hf] at hr; exact Bool.noConfusion hr
  exact ⟨hf, h.resetsOf_eq_none hf⟩

theorem Rest.mem_inUse_of_tail {ids : Fin n → UInt32} {a : Option (Fin n)} {op : BlockOp n}
    {ops : List (BlockOp n)} {e : Fin n} (h : Rest ids a (op :: ops)) (he : e ∈ inUse ops a) :
    e ∈ inUse (op :: ops) a := by
  unfold inUse at he ⊢
  rw [freesOf_cons]
  rcases h.cons_cases.2 with ⟨hp, _⟩ | ⟨e', comp, rfl, rfl, rfl⟩ | ⟨e', comp, rfl, rfl, rfl⟩
    | ⟨rfl, rfl, rfl⟩
  · rw [hp.1]; exact he
  · exact he
  · cases he
  · exact he

end Bookkeeping

section Waiting

variable {cfg : CacheConfig} {ids : Fin n → UInt32} {K : Contract cfg ids}
  {a z : Option (Fin n)} {cs : List (Chain n cfg.blockSize)}

theorem Waiting.quiet (h : Waiting K a cs z) (hr : releasesOf (allOps cs) = false) :
    freesOf (allOps cs) = none ∧ resetsOf (allOps cs) = none := by
  induction h with
  | nil => exact ⟨rfl, rfl⟩
  | @cons _ _ _ c cs hb _ _ _ _ _ ih =>
    rw [allOps_cons, releasesOf_append, Bool.or_eq_false_iff] at hr
    obtain ⟨hf, hq⟩ := hb.shape.rest.quiet hr.1
    obtain ⟨hf', hq'⟩ := ih hr.2
    rw [allOps_cons, freesOf_append, resetsOf_append, hf, hq, hf', hq']
    exact ⟨rfl, rfl⟩

theorem Waiting.owner {e : Fin n} (h : Waiting K a cs z) (ha : a = some e) :
    (freesOf (allOps cs) <|> (resetsOf (allOps cs) <|> z)) = some e := by
  induction h with
  | nil => exact ha
  | @cons a a' _ c cs hb _ _ _ _ _ ih =>
    subst ha
    rw [allOps_cons, freesOf_append, resetsOf_append]
    have hs := hb.shape
    generalize c.ops = ops at hs ⊢
    cases hs with
    | keep hp => rw [hp.frees, hp.resets]; exact ih rfl
    | drop pre hp => rw [freesOf_drop hp]; rfl

theorem Waiting.snoc {c : Chain n cfg.blockSize} {y : Option (Fin n)} (h : Waiting K a cs z)
    (hr : releasesOf (allOps cs) = false) (hb : Built cfg ids z c.req c.ops y)
    (ht : c.took = Serial.taken z y) (hok : K.Ok z c.req) (hd : c.bufs.dataPtr = c.req.data) :
    Waiting K a (cs ++ [c]) y := by
  induction h with
  | nil => exact .cons hb ht hok hd (fun h => absurd rfl h) .nil
  | cons hb' ht' hok' hd' hl _ ih =>
    rw [allOps_cons, releasesOf_append, Bool.or_eq_false_iff] at hr
    exact .cons hb' ht' hok' hd' (fun _ => hr.1) (ih hr.2 hb ht hok)

theorem owner_of_inUse {ops : List (BlockOp n)} {e : Fin n} (hrest : Rest ids a ops)
    (h : Waiting K a cs z) (he : e ∈ inUse ops a) :
    (freesOf (ops ++ allOps cs) <|> (resetsOf (ops ++ allOps cs) <|> z)) = some e := by
  rw [freesOf_append, resetsOf_append]
  unfold inUse at he
  cases hf : freesOf ops with
  | some e' => rw [hf] at he; exact he
  | none =>
    rw [hf] at he
    rw [hrest.resetsOf_eq_none hf]
    exact h.owner he

theorem Busy.owns_of_inUse {s : CacheState n} {b : Nat} {w : Bytes} {c : Chain n cfg.blockSize}
    {e : Fin n} (h : Busy K s b w c cs a z) (he : e ∈ inUse c.ops a) :
    owns (c :: cs) (s.entry b) = some e := by
  unfold owns
  rw [h.entry, allOps_cons]
  exact owner_of_inUse h.rest h.waiting he

end Waiting

end HDCS.Proof
