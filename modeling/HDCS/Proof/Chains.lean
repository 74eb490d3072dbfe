import HDCS.Proof.Cell

/-!
# What `map` builds

A chain is built for a block that is either uncached (`none`) or cached in some
entry (`some e`), and it leaves the block in one of these two conditions again.
`Built a req ops a'` lists the chains there are, each with the condition it is
built for and the one it leaves. That `map` builds nothing else is `map_cases`.

For the question of who owns which slot the contents of a chain do not matter,
only its shape does: it keeps the block's condition, fills a free entry, drops
the block's entry, or just clears the discard mark. `Rest` is what can be left
of a chain at any time, and it is closed under sending one more operation.
-/

namespace HDCS.Proof

open Lib LruList CachePolicy List

variable {n : Nat}

inductive Built (cfg : CacheConfig) (ids : Fin n → UInt32) :
    Option (Fin n) → BlockRequest cfg.blockSize → List (BlockOp n) → Option (Fin n) → Prop where
  | readHit {req e} (comp) : req.ioType = .read →
      Built cfg ids (some e) req (readHit cfg req e (ids e) comp) (some e)
  | readMiss {req e} (comp) : req.ioType = .read →
      Built cfg ids none req (readMiss cfg req e (ids e) comp) (some e)
  | readNone {req} : req.ioType = .read →
      Built cfg ids none req [.promoteFromBackend .dataPtr] none
  | writeReadOnly {a req} : req.ioType = .write → cfg.cacheMode = .readOnly →
      Built cfg ids a req [.writeToBackend .dataPtr] a
  | writeHit {req e} (comp) : req.ioType = .write → cfg.cacheMode ≠ .readOnly →
      Built cfg ids (some e) req (writeHit cfg req e (ids e) comp) (some e)
  | writeMiss {req e} (comp) : req.ioType = .write → cfg.cacheMode ≠ .readOnly →
      Built cfg ids none req (writeMiss cfg req e (ids e) comp) (some e)
  | writeNone {req} : req.ioType = .write → cfg.cacheMode ≠ .readOnly →
      Built cfg ids none req [.writeToBackend .dataPtr] none
  | demote {req e} (comp) : req.ioType = .demoteCache →
      Built cfg ids (some e) req (demote e (ids e) comp) none
  | demoteNone {req} : req.ioType = .demoteCache → Built cfg ids none req [] none
  | discard {req e} (comp) : req.ioType = .discard →
      Built cfg ids (some e) req (discard e (ids e) comp) none
  | discardNone {req} : req.ioType = .discard →
      Built cfg ids none req [.discardBlockToBackend, .releaseDiscardBlock] none
  | flush {req e} (comp) : req.ioType = .flush →
      Built cfg ids (some e) req (flush e (ids e) comp) (some e)
  | flushNone {req} : req.ioType = .flush → Built cfg ids none req [] none
  | promote {a req} : req.ioType = .promote → Built cfg ids a req [.doNothing] a

def Plain (op : BlockOp n) : Prop := frees op = none ∧ resets op = none ∧ releases op = false

def PlainOn (ids : Fin n → UInt32) (o : Option (Fin n)) (ops : List (BlockOp n)) : Prop :=
  ∀ op ∈ ops, Plain op ∧ Uses ids o op

def dropTail (e : Fin n) (comp : Option TimeoutComp) : List (BlockOp n) :=
  [.resetCacheEntry e, .updateCacheMeta none unpromoted 0, .updateLRU none e comp,
    .releaseDiscardBlock]

inductive Shape (ids : Fin n → UInt32) :
    Option (Fin n) → List (BlockOp n) → Option (Fin n) → Prop where
  | keep {a ops} : PlainOn ids a ops → Shape ids a ops a
  | fill {e ops} : PlainOn ids (some e) ops → Shape ids none ops (some e)
  | drop {e comp} (pre) : PlainOn ids (some e) pre →
      Shape ids (some e) (pre ++ dropTail e comp) none
  | clear (pre) : PlainOn ids none pre → Shape ids none (pre ++ [.releaseDiscardBlock]) none

inductive Rest (ids : Fin n → UInt32) : Option (Fin n) → List (BlockOp n) → Prop where
  | plain {a ops} : PlainOn ids a ops → Rest ids a ops
  | drop {e comp} (pre) : PlainOn ids (some e) pre → Rest ids none (pre ++ dropTail e comp)
  | detached {e comp} : Rest ids none
      [.updateCacheMeta none unpromoted 0, .updateLRU none e comp, .releaseDiscardBlock]
  | dropped {e comp} : Rest ids none [.updateLRU none e comp, .releaseDiscardBlock]
  | clear (pre) : PlainOn ids none pre → Rest ids none (pre ++ [.releaseDiscardBlock])

def freesOf (ops : List (BlockOp n)) : Option (Fin n) := ops.findSome? frees

def resetsOf (ops : List (BlockOp n)) : Option (Fin n) := ops.findSome? resets

def releasesOf (ops : List (BlockOp n)) : Bool := ops.any releases

section Plain

variable {ids : Fin n → UInt32} {o : Option (Fin n)} {op : BlockOp n} {ops ops' : List (BlockOp n)}

theorem PlainOn.nil : PlainOn ids o [] := fun _ h => absurd h not_mem_nil

theorem PlainOn.cons (hp : Plain op) (hu : Uses ids o op) (h : PlainOn ids o ops) :
    PlainOn ids o (op :: ops) :=
  forall_mem_cons.mpr ⟨⟨hp, hu⟩, h⟩

theorem PlainOn.append (h : PlainOn ids o ops) (h' : PlainOn ids o ops') :
    PlainOn ids o (ops ++ ops') :=
  forall_mem_append.mpr ⟨h, h'⟩

theorem PlainOn.tail (h : PlainOn ids o (op :: ops)) : PlainOn ids o ops :=
  fun x hx => h x (mem_cons_of_mem _ hx)

theorem PlainOn.frees (h : PlainOn ids o ops) : freesOf ops = none :=
  findSome?_eq_none_iff.mpr fun op hop => (h op hop).1.1

theorem PlainOn.resets (h : PlainOn ids o ops) : resetsOf ops = none :=
  findSome?_eq_none_iff.mpr fun op hop => (h op hop).1.2.1

theorem PlainOn.releases (h : PlainOn ids o ops) : releasesOf ops = false := by
  unfold releasesOf
  rw [any_eq_false]
  intro op hop
  rw [(h op hop).1.2.2]
  exact Bool.false_ne_true

end Plain

section Append

variable (xs ys : List (BlockOp n))

theorem freesOf_append : freesOf (xs ++ ys) = (freesOf xs <|> freesOf ys) := by
  unfold freesOf
  rw [findSome?_append]
  cases xs.findSome? frees <;> rfl

theorem resetsOf_append : resetsOf (xs ++ ys) = (resetsOf xs <|> resetsOf ys) := by
  unfold resetsOf
  rw [findSome?_append]
  cases xs.findSome? resets <;> rfl

theorem releasesOf_append : releasesOf (xs ++ ys) = (releasesOf xs || releasesOf ys) :=
  any_append

end Append

/-! ## Every chain has one of the shapes -/

section Built

variable {cfg : CacheConfig} {ids : Fin n → UInt32} {req : BlockRequest cfg.blockSize} {e : Fin n}
  {comp : Option TimeoutComp}

theorem readHit_plain : PlainOn ids (some e) (readHit cfg req e (ids e) comp) := by
  have hlru : PlainOn ids (some e) [.updateLRU (some e) e comp] :=
    .cons ⟨rfl, rfl, rfl⟩ ⟨rfl, Or.inr rfl⟩ .nil
  unfold readHit
  split
  · exact .cons ⟨rfl, rfl, rfl⟩ ⟨e, rfl, rfl⟩
      (.cons ⟨rfl, rfl, rfl⟩ trivial (.cons ⟨rfl, rfl, rfl⟩ trivial hlru))
  · exact .cons ⟨rfl, rfl, rfl⟩ ⟨e, rfl, rfl⟩ hlru

theorem record_plain {st : BlockStatus} :
    PlainOn ids (some e) [.updateCacheMeta (some e) st (ids e), .updateLRU (some e) e comp] :=
  .cons ⟨rfl, rfl, rfl⟩ ⟨rfl, rfl⟩ (.cons ⟨rfl, rfl, rfl⟩ ⟨rfl, Or.inr rfl⟩ .nil)

theorem readMiss_plain : PlainOn ids (some e) (readMiss cfg req e (ids e) comp) := by
  unfold readMiss
  split
  · exact .cons ⟨rfl, rfl, rfl⟩ trivial (.cons ⟨rfl, rfl, rfl⟩ ⟨e, rfl, rfl⟩
      (.cons ⟨rfl, rfl, rfl⟩ trivial (.cons ⟨rfl, rfl, rfl⟩ trivial record_plain)))
  · exact .cons ⟨rfl, rfl, rfl⟩ trivial (.cons ⟨rfl, rfl, rfl⟩ ⟨e, rfl, rfl⟩ record_plain)

theorem recordWrite_plain : PlainOn ids (some e) (recordWrite cfg e (ids e) comp) := by
  unfold recordWrite
  split
  · exact record_plain
  · exact .cons ⟨rfl, rfl, rfl⟩ trivial record_plain

theorem writeHit_plain : PlainOn ids (some e) (writeHit cfg req e (ids e) comp) := by
  unfold writeHit
  split
  · refine .append ?_ recordWrite_plain
    exact .cons ⟨rfl, rfl, rfl⟩ ⟨e, rfl, rfl⟩ (.cons ⟨rfl, rfl, rfl⟩ trivial
      (.cons ⟨rfl, rfl, rfl⟩ ⟨e, rfl, rfl⟩ (.cons ⟨rfl, rfl, rfl⟩ trivial .nil)))
  · exact .cons ⟨rfl, rfl, rfl⟩ ⟨e, rfl, rfl⟩ recordWrite_plain

theorem writeMiss_plain : PlainOn ids (some e) (writeMiss cfg req e (ids e) comp) := by
  unfold writeMiss
  split
  · refine .append ?_ recordWrite_plain
    exact .cons ⟨rfl, rfl, rfl⟩ trivial (.cons ⟨rfl, rfl, rfl⟩ trivial
      (.cons ⟨rfl, rfl, rfl⟩ ⟨e, rfl, rfl⟩ (.cons ⟨rfl, rfl, rfl⟩ trivial .nil)))
  · exact .cons ⟨rfl, rfl, rfl⟩ ⟨e, rfl, rfl⟩ recordWrite_plain

theorem flush_plain : PlainOn ids (some e) (flush e (ids e) comp) :=
  .cons ⟨rfl, rfl, rfl⟩ ⟨rfl, rfl⟩ record_plain

theorem single_plain {o : Option (Fin n)} {op : BlockOp n} (hp : Plain op) (hu : Uses ids o op) :
    PlainOn ids o [op] := .cons hp hu .nil

/-- **The chains `map` can build have the shapes the ownership argument knows.** -/
theorem Built.shape {a a' : Option (Fin n)} {ops : List (BlockOp n)}
    (h : Built cfg ids a req ops a') : Shape ids a ops a' := by
  cases h with
  | readHit _ _ => exact .keep readHit_plain
  | readMiss _ _ => exact .fill readMiss_plain
  | readNone _ | writeReadOnly _ _ | writeNone _ _ | promote _ =>
    exact .keep (single_plain ⟨rfl, rfl, rfl⟩ trivial)
  | writeHit _ _ _ => exact .keep writeHit_plain
  | writeMiss _ _ _ => exact .fill writeMiss_plain
  | @demote _ e _ _ =>
    refine Shape.drop [.flushBlockToBackend (ids e).toNat e .dataPtr,
      .demoteBlockToCache (ids e).toNat] ?_
    exact .cons ⟨rfl, rfl, rfl⟩ ⟨rfl, rfl⟩ (single_plain ⟨rfl, rfl, rfl⟩ ⟨e, rfl, rfl⟩)
  | demoteNone _ | flushNone _ => exact .keep .nil
  | @discard _ e _ _ =>
    refine Shape.drop [.discardBlockToBackend, .demoteBlockToCache (ids e).toNat] ?_
    exact .cons ⟨rfl, rfl, rfl⟩ trivial (single_plain ⟨rfl, rfl, rfl⟩ ⟨e, rfl, rfl⟩)
  | discardNone _ =>
    exact Shape.clear [.discardBlockToBackend] (single_plain ⟨rfl, rfl, rfl⟩ trivial)
  | flush _ _ => exact .keep flush_plain

end Built

theorem Shape.rest {ids : Fin n → UInt32} {a a' : Option (Fin n)} {ops : List (BlockOp n)}
    (h : Shape ids a ops a') : Rest ids a' ops := by
  cases h with
  | keep hp | fill hp => exact .plain hp
  | drop pre hp => exact .drop pre hp
  | clear pre hp => exact .clear pre hp

/-! ## Sending one more operation -/

def inUse (ops : List (BlockOp n)) (a : Option (Fin n)) : Option (Fin n) := freesOf ops <|> a

section Rest

variable {ids : Fin n → UInt32} {a : Option (Fin n)} {op : BlockOp n} {ops : List (BlockOp n)}

theorem freesOf_drop {e : Fin n} {pre : List (BlockOp n)} {comp : Option TimeoutComp}
    (hp : PlainOn ids (some e) pre) : freesOf (pre ++ dropTail e comp) = some e := by
  rw [freesOf_append, hp.frees]; rfl

theorem freesOf_clear {pre : List (BlockOp n)} (hp : PlainOn ids none pre) :
    freesOf (pre ++ [.releaseDiscardBlock]) = none := by
  rw [freesOf_append, hp.frees]; rfl

theorem Rest.cons_cases (h : Rest ids a (op :: ops)) : Rest ids a ops ∧
    ((Plain op ∧ Uses ids (inUse (op :: ops) a) op)
      ∨ (∃ e comp, a = none ∧ op = .resetCacheEntry e
          ∧ ops = [.updateCacheMeta none unpromoted 0, .updateLRU none e comp,
              .releaseDiscardBlock])
      ∨ (∃ e comp, a = none ∧ op = .updateLRU none e comp ∧ ops = [.releaseDiscardBlock])
      ∨ (a = none ∧ op = .releaseDiscardBlock ∧ ops = [])) := by
  unfold inUse
  generalize hx : op :: ops = xs at h
  cases h with
  | plain hp =>
    subst hx
    rw [hp.frees]
    exact ⟨.plain hp.tail, Or.inl (hp op mem_cons_self)⟩
  | @drop e comp pre hp =>
    rw [freesOf_drop hp]
    cases pre with
    | nil =>
      obtain ⟨rfl, rfl⟩ := List.cons.inj hx
      exact ⟨.detached, Or.inr (Or.inl ⟨e, comp, rfl, rfl, rfl⟩)⟩
    | cons o pre =>
      obtain ⟨rfl, rfl⟩ := List.cons.inj hx
      exact ⟨.drop pre hp.tail, Or.inl (hp op mem_cons_self)⟩
  | detached =>
    obtain ⟨rfl, rfl⟩ := List.cons.inj hx
    exact ⟨.dropped, Or.inl ⟨⟨rfl, rfl, rfl⟩, rfl⟩⟩
  | @dropped e comp =>
    obtain ⟨rfl, rfl⟩ := List.cons.inj hx
    exact ⟨.clear [] .nil, Or.inr (Or.inr (Or.inl ⟨e, comp, rfl, rfl, rfl⟩))⟩
  | clear pre hp =>
    rw [freesOf_clear hp]
    cases pre with
    | nil =>
      obtain ⟨rfl, rfl⟩ := List.cons.inj hx
      exact ⟨.plain .nil, Or.inr (Or.inr (Or.inr ⟨rfl, rfl, rfl⟩))⟩
    | cons o pre =>
      obtain ⟨rfl, rfl⟩ := List.cons.inj hx
      exact ⟨.clear pre hp.tail, Or.inl (hp op mem_cons_self)⟩

theorem Rest.head_uses (h : Rest ids a (op :: ops)) : Uses ids (inUse (op :: ops) a) op := by
  rcases h.cons_cases.2 with ⟨_, hu⟩ | ⟨e, comp, rfl, rfl, rfl⟩ | ⟨e, comp, rfl, rfl, rfl⟩
    | ⟨rfl, rfl, rfl⟩
  · exact hu
  · exact rfl
  · exact ⟨rfl, Or.inl rfl⟩
  · trivial

theorem Rest.none_of_releasesOf (h : Rest ids a ops) (hr : releasesOf ops = true) : a = none := by
  cases h with
  | plain hp => rw [hp.releases] at hr; exact Bool.noConfusion hr
  | drop _ _ | detached | dropped | clear _ _ => rfl

theorem Rest.freesOf_of_resetsOf {e : Fin n} (h : Rest ids a ops) (hr : resetsOf ops = some e) :
    freesOf ops = some e := by
  cases h with
  | plain hp => rw [hp.resets] at hr; cases hr
  | @drop e' comp pre hp =>
    rw [resetsOf_append, hp.resets] at hr
    rw [freesOf_drop hp]; exact hr
  | detached | dropped => cases hr
  | clear pre hp =>
    rw [resetsOf_append, hp.resets] at hr
    cases hr

theorem Rest.resetsOf_eq_none (h : Rest ids a ops) (hf : freesOf ops = none) :
    resetsOf ops = none := by
  cases hq : resetsOf ops with
  | none => rfl
  | some e => rw [h.freesOf_of_resetsOf hq] at hf; cases hf

theorem Rest.releasesOf_of_freesOf {e : Fin n} (h : Rest ids a ops) (hf : freesOf ops = some e) :
    releasesOf ops = true := by
  cases h with
  | plain hp => rw [hp.frees] at hf; cases hf
  | drop pre hp => rw [releasesOf_append]; simp [releasesOf, dropTail, releases]
  | detached | dropped => rfl
  | clear pre hp => rw [freesOf_clear hp] at hf; cases hf

end Rest

/-! ## `map` builds nothing else -/

inductive Mapped (cfg : CacheConfig) (ids : Fin n → UInt32) (req : BlockRequest cfg.blockSize)
    (s : CacheState n) : List (BlockOp n) × CacheState n → Prop where
  | keep {ops k} : Built cfg ids (s.entry req.block) req ops (s.entry req.block) →
      PlainOn ids (s.entry req.block) ops →
      Mapped cfg ids req s (ops, { s with timeoutComps := k })
  | fill {ops k e} : s.entry req.block = none → getHead s.freeLru = some e →
      Built cfg ids none req ops (some e) → PlainOn ids (some e) ops →
      Mapped cfg ids req s (ops, attach req.block e { s with timeoutComps := k })
  | drop {ops k} : Built cfg ids (s.entry req.block) req ops none →
      freesOf ops = s.entry req.block → resetsOf ops = s.entry req.block →
      releasesOf ops = true →
      Mapped cfg ids req s (ops, lockDiscard req.block { s with timeoutComps := k })

theorem Built.plain_of_fill {cfg : CacheConfig} {ids : Fin n → UInt32} {e : Fin n}
    {req : BlockRequest cfg.blockSize} {ops : List (BlockOp n)}
    (h : Built cfg ids none req ops (some e)) : PlainOn ids (some e) ops := by
  cases h.shape with
  | fill hp => exact hp

section Map

variable {cfg : CacheConfig} {ids : Fin n → UInt32} {req : BlockRequest cfg.blockSize}
  {s : CacheState n} {ops : List (BlockOp n)} {k : Nat}

theorem Mapped.keep_none (he : s.entry req.block = none) (hb : Built cfg ids none req ops none)
    (hp : PlainOn ids none ops) : Mapped cfg ids req s (ops, { s with timeoutComps := k }) :=
  .keep (he ▸ hb) (he ▸ hp)

theorem Mapped.keep_some {e : Fin n} (he : s.entry req.block = some e)
    (hb : Built cfg ids (some e) req ops (some e)) (hp : PlainOn ids (some e) ops) :
    Mapped cfg ids req s (ops, { s with timeoutComps := k }) :=
  .keep (he ▸ hb) (he ▸ hp)

theorem Mapped.drop_some {e : Fin n} (he : s.entry req.block = some e)
    (hb : Built cfg ids (some e) req ops none) (hf : freesOf ops = some e)
    (hq : resetsOf ops = some e) (hr : releasesOf ops = true) :
    Mapped cfg ids req s (ops, lockDiscard req.block { s with timeoutComps := k }) :=
  .drop (he ▸ hb) (hf.trans he.symm) (hq.trans he.symm) hr

end Map

/-- **What `map` can do.** -/
theorem map_cases (cfg : CacheConfig) (req : BlockRequest cfg.blockSize) (s : CacheState n) :
    Mapped cfg (fun e => (s.entries e).entryId) req s (CachePolicy.map cfg req s) := by
  unfold CachePolicy.map
  dsimp only
  -- one branch for each kind of request, and in it by the entry and the head of `free_lru`
  split
  · rename_i hio
    split
    · rename_i e he
      exact .keep_some he (.readHit _ hio) readHit_plain
    · rename_i he
      split
      · rename_i e hf
        exact .fill he hf (.readMiss _ hio) readMiss_plain
      · exact .keep_none he (.readNone hio) (single_plain ⟨rfl, rfl, rfl⟩ trivial)
  · rename_i hio
    split
    · rename_i hro
      exact .keep (.writeReadOnly hio hro) (single_plain ⟨rfl, rfl, rfl⟩ trivial)
    · rename_i hro
      split
      · rename_i e he
        exact .keep_some he (.writeHit _ hio hro) writeHit_plain
      · rename_i he
        split
        · rename_i e hf
          exact .fill he hf (.writeMiss _ hio hro) writeMiss_plain
        · exact .keep_none he (.writeNone hio hro) (single_plain ⟨rfl, rfl, rfl⟩ trivial)
  · rename_i hio
    split
    · rename_i e he
      exact .drop_some he (.demote _ hio) rfl rfl rfl
    · rename_i he
      exact .keep_none he (.demoteNone hio) .nil
  · rename_i hio
    split
    · rename_i e he
      exact .drop_some he (.discard _ hio) rfl rfl rfl
    · rename_i he
      exact .drop (by rw [he]; exact .discardNone hio) he.symm he.symm rfl
  · rename_i hio
    split
    · rename_i e he
      exact .keep_some he (.flush _ hio) flush_plain
    · rename_i he
      exact .keep_none he (.flushNone hio) .nil
  · rename_i hio
    exact .keep (.promote hio) (single_plain ⟨rfl, rfl, rfl⟩ trivial)

theorem map_read_of_entry {cfg : CacheConfig} {req : BlockRequest cfg.blockSize}
    {s : CacheState n} {e : Fin n} (hio : req.ioType = .read) (he : s.entry req.block = some e) :
    ∃ d ops, (CachePolicy.map cfg req s).1
      = .readBlockFromCache (s.entries e).entryId.toNat d :: ops := by
  unfold CachePolicy.map
  rw [hio]
  dsimp only
  rw [he]
  dsimp only
  unfold readHit
  split
  · exact ⟨_, _, rfl⟩
  · exact ⟨_, _, rfl⟩

end HDCS.Proof
