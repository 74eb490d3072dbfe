import HDCS.Proof.Invariant

/-!
# The invariant along a step

What an action does is decided by the block it is about: its running chain sends
an operation (`Busy.send`), its running chain ends (`BlockInv.finish`), or a chain
is put behind the others (`BlockInv.accept`). For every other block the same
action changes nothing that block can see, because the only slot it works on is
owned by the acting block (`BlockInv.frame`).
-/

namespace HDCS.Proof

open Lib LruList CachePolicy Function List

variable {n : Nat}

section Block

variable {cfg : CacheConfig} {ids : Fin n → UInt32} {K : Contract cfg ids}
  {s s' : CacheState n} {b : Nat} {w : Bytes} {c : Chain n cfg.blockSize}
  {cs q : List (Chain n cfg.blockSize)} {a z y : Option (Fin n)} {op : BlockOp n}
  {ops : List (BlockOp n)}

/-! ## Sending an operation -/

theorem Running.send (h : Running K s w c a) (hops : c.ops = op :: ops)
    (hrest : Rest ids a (op :: ops)) (hids : ∀ k, (s.entries k).entryId = ids k)
    (hn : ListsNodup s) :
    Running K (CachePolicy.send cfg c.req op (c.bufs, s)).2 w
      { c with ops := ops, bufs := (CachePolicy.send cfg c.req op (c.bufs, s)).1 } a := by
  obtain ⟨a₀, done, m, v, hb, ht, hok, hi, hwf, hd, hbufs, hv, hs⟩ := h
  rw [hops] at hb hs
  have hx : (c.bufs, (Cell.run cfg c.req done (m, v)).2) = Cell.run cfg c.req done (m, v) := by
    rw [hbufs]
  obtain ⟨h1, h2, h3⟩ := send_cell (m := c.bufs) hrest.head_uses hids hn hv hs
  rw [hx, ← Cell.run_snoc] at h1 h2 h3
  refine ⟨a₀, done ++ [op], m, v, ?_, ht, hok, hi, hwf, hd, h1, h2, ?_⟩
  · rw [append_assoc]; exact hb
  · intro e he
    exact h3 e (hrest.mem_inUse_of_tail he)

theorem resets_eq_some {e : Fin n} (h : resets op = some e) : op = .resetCacheEntry e := by
  cases op with
  | resetCacheEntry e' => rw [Option.some.inj h]
  | _ => cases h

theorem Rest.tail_of_resets {e : Fin n} (h : Rest ids a (op :: ops)) (hq : resets op = some e) :
    freesOf ops = some e ∧ resetsOf ops = none := by
  rcases h.cons_cases.2 with ⟨hp, _⟩ | ⟨e', comp, rfl, rfl, rfl⟩ | ⟨e', comp, rfl, rfl, rfl⟩
    | ⟨rfl, rfl, rfl⟩
  · rw [hp.2.1] at hq; cases hq
  · exact ⟨hq, rfl⟩
  · cases hq
  · cases hq

theorem Rest.tail_of_frees {e : Fin n} (h : Rest ids a (op :: ops)) (hf : frees op = some e) :
    freesOf ops = none ∧ resetsOf ops = none := by
  rcases h.cons_cases.2 with ⟨hp, _⟩ | ⟨e', comp, rfl, rfl, rfl⟩ | ⟨e', comp, rfl, rfl, rfl⟩
    | ⟨rfl, rfl, rfl⟩
  · rw [hp.1] at hf; cases hf
  · cases hf
  · exact ⟨rfl, rfl⟩
  · cases hf

theorem Rest.tail_of_releases (h : Rest ids a (op :: ops)) (hr : releases op = true) :
    ops = [] := by
  rcases h.cons_cases.2 with ⟨hp, _⟩ | ⟨e', comp, rfl, rfl, rfl⟩ | ⟨e', comp, rfl, rfl, rfl⟩
    | ⟨rfl, rfl, rfl⟩
  · rw [hp.2.2] at hr; exact Bool.noConfusion hr
  · exact Bool.noConfusion hr
  · exact Bool.noConfusion hr
  · rfl

theorem Rest.eq_of_detached {e : Fin n} (h : Rest ids a (op :: ops))
    (hq : resetsOf (op :: ops) = none) (hf : freesOf ops = some e) :
    op = .updateCacheMeta none unpromoted 0 := by
  generalize hx : op :: ops = xs at h hq
  cases h with
  | plain hp =>
    subst hx
    rw [hp.tail.frees] at hf; cases hf
  | drop pre hp =>
    rw [resetsOf_append, hp.resets] at hq
    cases hq
  | detached => exact (List.cons.inj hx).1
  | dropped =>
    rw [(List.cons.inj hx).2] at hf
    cases hf
  | clear pre hp =>
    have : freesOf (op :: ops) = none := hx ▸ freesOf_clear hp
    rw [freesOf_cons, Option.orElse_eq_none] at this
    rw [this.2] at hf; cases hf

theorem send_entry_of_ne {b' : Nat} {m : Bufs} {req : BlockRequest cfg.blockSize}
    (hb : b' ≠ req.block) : (CachePolicy.send cfg req op (m, s)).2.entry b' = s.entry b' := by
  rw [send_entry]
  split
  · rw [update_of_ne hb]
  · rfl

theorem send_status_other {o : Option (Fin n)} {k : Fin n} {m : Bufs}
    {req : BlockRequest cfg.blockSize} (hu : Uses ids o op)
    (hids : ∀ k, (s.entries k).entryId = ids k) (hinj : Injective ids) (hk : k ∉ o) :
    ((CachePolicy.send cfg req op (m, s)).2.entries k).status = (s.entries k).status := by
  have hs : Slot cfg s k ⟨block cfg.blockSize (s.entries k).entryId.toNat s.cacheData,
    (s.entries k).status, s.cacheData, 0, false, false⟩ := ⟨rfl, rfl⟩
  exact (send_slot_other hu hids hinj hk hs).status

theorem Busy.alone (h : Busy K s b w c cs a z) (hr : releasesOf c.ops = true) :
    cs = [] ∧ z = none := by
  have hcs : cs = [] := by
    by_contra hne
    rw [h.last hne] at hr; exact Bool.noConfusion hr
  subst hcs
  refine ⟨rfl, ?_⟩
  cases h.waiting
  exact h.rest.none_of_releasesOf hr

theorem allOps_of_ops (hops : c.ops = op :: ops) :
    allOps (c :: cs) = op :: (ops ++ allOps cs) := by
  rw [allOps_cons, hops]; rfl

section Send

variable (h : Busy K s b w c cs a z) (hops : c.ops = op :: ops)

include h hops

theorem Busy.entry_send (hb : c.req.block = b) :
    (CachePolicy.send cfg c.req op (c.bufs, s)).2.entry b
      = (resetsOf (ops ++ allOps cs) <|> z) := by
  have hrest : Rest ids a (op :: ops) := hops ▸ h.rest
  rw [send_entry]
  cases hq : resets op with
  | none =>
    rw [if_neg (by simp), h.entry, allOps_of_ops hops, resetsOf_cons, hq]; rfl
  | some e =>
    have hr : releasesOf c.ops = true := by
      refine h.rest.releasesOf_of_freesOf (h.rest.freesOf_of_resetsOf (e := e) ?_)
      rw [hops, resetsOf_cons, hq]; rfl
    obtain ⟨rfl, rfl⟩ := h.alone hr
    rw [if_pos (by simp), hb, update_self, resetsOf_append, (hrest.tail_of_resets hq).2]
    rfl

theorem Busy.discard_send (hb : c.req.block = b) :
    (CachePolicy.send cfg c.req op (c.bufs, s)).2.inDiscardProcess b
      = releasesOf (ops ++ allOps cs) := by
  have hrest : Rest ids a (op :: ops) := hops ▸ h.rest
  rw [send_inDiscardProcess]
  cases hr : releases op with
  | false =>
    rw [if_neg (by simp), h.discard, allOps_of_ops hops, releasesOf_cons, hr]; rfl
  | true =>
    have hr' : releasesOf c.ops = true := by rw [hops, releasesOf_cons, hr]; rfl
    obtain ⟨rfl, rfl⟩ := h.alone hr'
    rw [if_pos rfl, hb, update_self, hrest.tail_of_releases hr]
    rfl

theorem Busy.detached_send {e : Fin n} (hf : freesOf ops = some e) (hq : resetsOf ops = none) :
    ((CachePolicy.send cfg c.req op (c.bufs, s)).2.entries e).status = unpromoted := by
  have hrest : Rest ids a (op :: ops) := hops ▸ h.rest
  cases hre : resets op with
  | some e' =>
    -- this operation detaches the slot, and takes its status away
    have he : e' = e := by
      have := (hrest.tail_of_resets hre).1.symm.trans hf
      exact Option.some.inj this
    subst he
    rw [resets_eq_some hre]
    simp [CachePolicy.send]
  | none =>
    -- it was detached before, and clearing the metadata word leaves the status alone
    have hq' : resetsOf (op :: ops) = none := by rw [resetsOf_cons, hre]; exact hq
    have hop := hrest.eq_of_detached hq' hf
    have hold := h.detached e (by rw [hops, freesOf_cons, hop]; exact hf) (hops ▸ hq')
    rw [hop]; exact hold

theorem Busy.unfilled_send (hb : c.req.block = b) (hids : ∀ k, (s.entries k).entryId = ids k)
    (hinj : Injective ids) {m : Bufs} {e : Fin n}
    (how : owns ({ c with ops := ops, bufs := m } :: cs)
      ((CachePolicy.send cfg c.req op (c.bufs, s)).2.entry b) = some e)
    (hu : inUse ops a = none) :
    ((CachePolicy.send cfg c.req op (c.bufs, s)).2.entries e).status = unpromoted := by
  have hrest : Rest ids a (op :: ops) := hops ▸ h.rest
  unfold inUse at hu
  rw [Option.orElse_eq_none] at hu
  unfold owns at how
  rw [h.entry_send hops hb, allOps_cons] at how
  cases hf : frees op with
  | some e' =>
    -- a slot that has just been given back is not the block's any more
    have hr : releasesOf c.ops = true := by
      refine h.rest.releasesOf_of_freesOf (e := e') ?_
      rw [hops, freesOf_cons, hf]; rfl
    obtain ⟨rfl, rfl⟩ := h.alone hr
    obtain ⟨hf', hq'⟩ := hrest.tail_of_frees hf
    rw [freesOf_append, resetsOf_append] at how
    dsimp only at how
    rw [hf', hq'] at how
    cases how
  | none =>
    have hre : resets op = none := by
      cases hre : resets op with
      | none => rfl
      | some e' =>
        have := (hrest.tail_of_resets hre).1.symm.trans hu.1
        cases this
    -- the slot is another chain's to fill, so this operation does not reach it
    have huse : inUse c.ops a = none := by
      unfold inUse
      rw [hops, freesOf_cons, hf, hu.2, hu.1]; rfl
    have hold : owns (c :: cs) (s.entry b) = some e := by
      unfold owns
      rw [h.entry, allOps_of_ops hops, freesOf_cons, resetsOf_cons, hf, hre]; exact how
    have huses := hrest.head_uses
    rw [← hops, huse] at huses
    rw [send_status_other huses hids hinj (by simp)]
    exact h.unfilled e hold huse

/-- **The running chain sends its next operation.** -/
theorem Busy.send (hb : c.req.block = b) (hids : ∀ k, (s.entries k).entryId = ids k)
    (hinj : Injective ids) (hn : ListsNodup s) :
    Busy K (CachePolicy.send cfg c.req op (c.bufs, s)).2 b w
      { c with ops := ops, bufs := (CachePolicy.send cfg c.req op (c.bufs, s)).1 } cs a z := by
  have hrest : Rest ids a (op :: ops) := hops ▸ h.rest
  refine ⟨h.running.send hops hrest hids hn, hrest.cons_cases.1, h.waiting, ?_, ?_, ?_, ?_, ?_⟩
  · intro hne
    have hl := h.last hne
    rw [hops, releasesOf_cons, Bool.or_eq_false_iff] at hl
    exact hl.2
  · rw [allOps_cons]; exact h.entry_send hops hb
  · rw [allOps_cons]; exact h.discard_send hops hb
  · intro e hf hq
    exact h.detached_send hops hf hq
  · intro e how hu
    exact h.unfilled_send hops hb hids hinj how hu

end Send

theorem frees_eq_some {e : Fin n} (h : frees op = some e) :
    ∃ comp, op = .updateLRU none e comp := by
  cases op with
  | updateLRU st e' comp =>
    cases st with
    | none => exact ⟨comp, by rw [Option.some.inj h]⟩
    | some _ => cases h
  | _ => cases h

theorem Busy.owns_send (h : Busy K s b w c cs a z) (hops : c.ops = op :: ops)
    (hf : frees op = none) {m : Bufs} :
    owns ({ c with ops := ops, bufs := m } :: cs)
        ((CachePolicy.send cfg c.req op (c.bufs, s)).2.entry b)
      = owns (c :: cs) (s.entry b) := by
  have hrest : Rest ids a (op :: ops) := hops ▸ h.rest
  unfold owns
  rw [allOps_cons, allOps_cons, hops, cons_append, freesOf_cons, hf]
  cases hq : resets op with
  | none => rw [send_entry, hq]; rfl
  | some e =>
    have hfe : freesOf (ops ++ allOps cs) = some e := by
      rw [freesOf_append, (hrest.tail_of_resets hq).1]; rfl
    dsimp only
    rw [hfe]; rfl

theorem Busy.owns_send_of_frees {e : Fin n} (h : Busy K s b w c cs a z)
    (hops : c.ops = op :: ops) (hf : frees op = some e) {m : Bufs} :
    owns (c :: cs) (s.entry b) = some e
      ∧ owns ({ c with ops := ops, bufs := m } :: cs)
          ((CachePolicy.send cfg c.req op (c.bufs, s)).2.entry b) = none := by
  have hrest : Rest ids a (op :: ops) := hops ▸ h.rest
  have hfc : freesOf c.ops = some e := by rw [hops, freesOf_cons, hf]; rfl
  obtain ⟨rfl, rfl⟩ := h.alone (h.rest.releasesOf_of_freesOf hfc)
  obtain ⟨hf', hq'⟩ := hrest.tail_of_frees hf
  have hq : resets op = none := by
    obtain ⟨comp, rfl⟩ := frees_eq_some hf
    rfl
  have hs : s.entry b = none := by
    rw [h.entry, allOps_cons, hops, cons_append, resetsOf_cons, hq, resetsOf_append, hq']
    rfl
  constructor
  · unfold owns
    rw [allOps_cons, freesOf_append, hfc]; rfl
  · unfold owns
    rw [send_entry, hq, allOps_cons, freesOf_append]
    dsimp only
    rw [hf']
    exact hs

/-! ## Starting and ending a chain -/

theorem Running.start {v : Cell} (hb : Built cfg ids a c.req c.ops y)
    (ht : c.took = Serial.taken a y) (hok : K.Ok a c.req) (hi : K.Idle w a v)
    (hwf : v.Wf cfg.blockSize) (hd : c.bufs.dataPtr = c.req.data)
    (hv : Shows cfg s c.req.block v) (hs : ∀ e ∈ a, Slot cfg s e v)
    (hun : ∀ e, a = none → y = some e → (s.entries e).status = unpromoted) :
    Running K s w c y := by
  -- it can use the slot the block has; only a chain that fills a free slot brings its own
  have hkeep : (∀ e ∈ inUse c.ops y, e ∈ a) → Running K s w c y := fun huse =>
    ⟨a, [], c.bufs, v, hb, ht, hok, hi, hwf, hd, rfl, hv, fun e he => hs e (huse e he)⟩
  have hshape := hb.shape
  generalize hx : c.ops = ops at hshape
  cases hshape with
  | keep hp =>
    refine hkeep fun e he => ?_
    unfold inUse at he
    rw [hx, hp.frees] at he; exact he
  | @drop e comp pre hp =>
    refine hkeep fun e he => ?_
    unfold inUse at he
    rw [hx, freesOf_drop hp] at he; exact he
  | clear pre hp =>
    refine hkeep fun e he => ?_
    unfold inUse at he
    rw [hx, freesOf_clear hp] at he; exact he
  | @fill e _ hp =>
    refine ⟨none, [], c.bufs, { v with
      slot := block cfg.blockSize (s.entries e).entryId.toNat s.cacheData
      status := unpromoted }, hb, ht, hok, K.attach hi, ⟨clipped_block _ _ _, hwf.back⟩, hd, rfl,
      ⟨hv.back, hv.word, hv.clean, hv.dirty⟩, ?_⟩
    intro k hk
    unfold inUse at hk
    rw [hx, hp.frees] at hk
    obtain rfl : e = k := Option.some.inj hk
    exact ⟨hun e rfl rfl, rfl⟩

theorem Busy.start {v : Cell} (hblk : c.req.block = b) (hb : Built cfg ids a c.req c.ops y)
    (ht : c.took = Serial.taken a y) (hok : K.Ok a c.req) (hi : K.Idle w a v)
    (hwf : v.Wf cfg.blockSize) (hd : c.bufs.dataPtr = c.req.data) (hv : Shows cfg s b v)
    (hs : ∀ e ∈ a, Slot cfg s e v)
    (hun : ∀ e, a = none → y = some e → (s.entries e).status = unpromoted)
    (hwait : Waiting K y cs z) (hlast : cs ≠ [] → releasesOf c.ops = false)
    (hentry : s.entry b = (resetsOf (allOps (c :: cs)) <|> z))
    (hdisc : s.inDiscardProcess b = releasesOf (allOps (c :: cs)))
    (hunf : ∀ e, owns (c :: cs) (s.entry b) = some e → a = none → y = none →
      (s.entries e).status = unpromoted) : Busy K s b w c cs y z where
  running := Running.start hb ht hok hi hwf hd (hblk ▸ hv) hs hun
  rest := hb.shape.rest
  waiting := hwait
  last := hlast
  entry := hentry
  discard := hdisc
  detached := by
    intro e hf hq
    have hshape := hb.shape
    generalize c.ops = ops at hshape hf hq
    cases hshape with
    | keep hp | fill hp => rw [hp.frees] at hf; cases hf
    | drop pre hp =>
      rw [resetsOf_append, hp.resets] at hq
      cases hq
    | clear pre hp => rw [freesOf_clear hp] at hf; cases hf
  unfilled := by
    intro e how hu
    unfold inUse at hu
    rw [Option.orElse_eq_none] at hu
    refine hunf e how ?_ hu.2
    have hshape := hb.shape
    generalize c.ops = ops at hshape hu
    cases hshape with
    | keep hp => exact hu.2
    | fill hp | clear pre hp => rfl
    | drop pre hp => rw [freesOf_drop hp] at hu; exact absurd hu.1 (by simp)

/-- **The running chain ends, and the next one takes over.** -/
theorem BlockInv.finish (h : BlockInv K s b w (c :: cs)) (hops : c.ops = []) :
    BlockInv K s b (applyWrite c.req w) cs := by
  obtain ⟨hblk, a, z, h⟩ := h
  obtain ⟨a₀, done, m, v, hb, -, hok, hi, hwf, hd, -, hv, hs⟩ := h.running
  rw [hops, append_nil] at hb
  rw [hops] at hs
  have hi' := K.run hb hok hi hwf hd
  have hwf' : (Cell.run cfg c.req done (m, v)).2.Wf cfg.blockSize := Cell.Wf.run done hwf
  rw [hblk c mem_cons_self] at hv
  have hentry := h.entry
  have hdisc := h.discard
  rw [allOps_cons, hops, nil_append] at hentry hdisc
  cases hw : h.waiting with
  | nil =>
    have hentry : s.entry b = a := hentry
    refine ⟨_, ?_, hwf', hv, ?_, hdisc⟩
    · rw [hentry]; exact hi'
    · rw [hentry]; exact hs
  | @cons _ a' _ c' cs' hb' ht' hok' hd' hl hw' =>
    refine ⟨fun x hx => hblk x (mem_cons_of_mem _ hx), a', z, ?_⟩
    have howns : owns (c :: c' :: cs') (s.entry b) = owns (c' :: cs') (s.entry b) := by
      unfold owns
      rw [allOps_cons, hops, nil_append]
    refine Busy.start (hblk c' (by simp)) hb' ht' hok' hi' hwf' hd' hv hs ?_ hw' hl hentry hdisc ?_
    · intro e ha hy
      refine h.unfilled e ?_ (by rw [hops, ha]; rfl)
      rw [howns]
      unfold owns
      rw [hentry, allOps_cons]
      refine owner_of_inUse hb'.shape.rest hw' ?_
      subst ha hy
      unfold inUse
      rw [hb'.plain_of_fill.frees]; rfl
    · intro e how ha _
      exact h.unfilled e (howns ▸ how) (by rw [hops, ha]; rfl)

/-! ## Putting a chain behind the others -/

structure Appended (cfg : CacheConfig) (ids : Fin n → UInt32) (s s' : CacheState n)
    (req : BlockRequest cfg.blockSize) (ops : List (BlockOp n)) (y : Option (Fin n)) : Prop where
  built : Built cfg ids (s.entry req.block) req ops y
  entry : s'.entry req.block = (resetsOf ops <|> y)
  discard : s'.inDiscardProcess req.block = releasesOf ops
  entries : s'.entries = s.entries
  shows : ∀ b v, Shows cfg s b v → Shows cfg s' b v
  slot : ∀ e v, Slot cfg s e v → Slot cfg s' e v
  other : ∀ b, b ≠ req.block → s'.entry b = s.entry b ∧ s'.inDiscardProcess b = s.inDiscardProcess b
  nodup : ListsNodup s → ListsNodup s'
  /-- The block has the slot it had, or the head of `free_lru`. -/
  owner : (s'.freeLru = s.freeLru ∧ (freesOf ops <|> s'.entry req.block) = s.entry req.block)
    ∨ ∃ e ∈ s.freeLru, s.entry req.block = none ∧ s'.freeLru = remove e s.freeLru
        ∧ (freesOf ops <|> s'.entry req.block) = some e

theorem Mapped.appended {req : BlockRequest cfg.blockSize} {x : List (BlockOp n) × CacheState n}
    (h : Mapped cfg ids req s x) (hd : s.inDiscardProcess req.block = false) :
    ∃ y, Appended cfg ids s x.2 req x.1 y := by
  cases h with
  | keep hb hp =>
    refine ⟨_, hb, ?_, ?_, rfl, ?_, ?_, fun _ _ => ⟨rfl, rfl⟩, ?_, Or.inl ⟨rfl, ?_⟩⟩
    · rw [hp.resets]; rfl
    · rw [hp.releases]; exact hd
    · exact fun b v h => ⟨h.back, h.word, h.clean, h.dirty⟩
    · exact fun e v h => ⟨h.status, h.bytes⟩
    · exact fun h => ⟨h.free, h.clean, h.dirty⟩
    · rw [hp.frees]; rfl
  | @fill _ k e he hf hb hp =>
    have hself : (attach req.block e { s with timeoutComps := k }).entry req.block = some e :=
      update_self ..
    refine ⟨some e, he ▸ hb, ?_, ?_, rfl, ?_, ?_, ?_, ?_,
      Or.inr ⟨e, mem_of_getHead hf, he, rfl, ?_⟩⟩
    · rw [hself, hp.resets]; rfl
    · rw [hp.releases]; exact hd
    · exact fun b v h => ⟨h.back, h.word, h.clean, h.dirty⟩
    · exact fun e v h => ⟨h.status, h.bytes⟩
    · exact fun b hne => ⟨update_of_ne hne _ _, rfl⟩
    · exact fun h => ⟨nodup_remove h.free, h.clean, h.dirty⟩
    · rw [hp.frees]; exact hself
  | drop hb hf hq hr =>
    refine ⟨none, hb, ?_, ?_, rfl, ?_, ?_, ?_, ?_, Or.inl ⟨rfl, ?_⟩⟩
    · rw [hq]; simp [lockDiscard]
    · rw [hr]; exact update_self ..
    · exact fun b v h => ⟨h.back, h.word, h.clean, h.dirty⟩
    · exact fun e v h => ⟨h.status, h.bytes⟩
    · exact fun b hne => ⟨rfl, update_of_ne hne _ _⟩
    · exact fun h => ⟨h.free, h.clean, h.dirty⟩
    · rw [hf]; cases h : s.entry req.block <;> simp [lockDiscard, h]

theorem Running.frame (h : Running K s w c a)
    (hshows : ∀ v, Shows cfg s c.req.block v → Shows cfg s' c.req.block v)
    (hslot : ∀ e ∈ inUse c.ops a, ∀ v, Slot cfg s e v → Slot cfg s' e v) :
    Running K s' w c a := by
  obtain ⟨a₀, done, m, v, hb, ht, hok, hi, hwf, hd, hbufs, hv, hs⟩ := h
  exact ⟨a₀, done, m, v, hb, ht, hok, hi, hwf, hd, hbufs, hshows _ hv,
    fun e he => hslot e he _ (hs e he)⟩

theorem BlockInv.quiet (h : BlockInv K s b w q) (hd : s.inDiscardProcess b = false) :
    freesOf (allOps q) = none ∧ resetsOf (allOps q) = none ∧ releasesOf (allOps q) = false := by
  cases q with
  | nil => exact ⟨rfl, rfl, rfl⟩
  | cons c cs =>
    obtain ⟨_, a, z, h⟩ := h
    have hr : releasesOf (allOps (c :: cs)) = false := h.discard.symm.trans hd
    rw [allOps_cons, releasesOf_append, Bool.or_eq_false_iff] at hr
    obtain ⟨hf, hq⟩ := h.rest.quiet hr.1
    obtain ⟨hf', hq'⟩ := h.waiting.quiet hr.2
    rw [allOps_cons, freesOf_append, resetsOf_append, releasesOf_append, hf, hf', hq, hq',
      hr.1, hr.2]
    exact ⟨rfl, rfl, rfl⟩

theorem Appended.fresh {req : BlockRequest cfg.blockSize} {e : Fin n}
    (hm : Appended cfg ids s s' req ops y)
    (how : (freesOf ops <|> s'.entry req.block) = some e) :
    s.entry req.block = some e ∨ e ∈ s.freeLru := by
  rcases hm.owner with ⟨_, ho⟩ | ⟨e', he', _, _, ho⟩
  · exact Or.inl (ho.symm.trans how)
  · exact Or.inr (Option.some.inj (ho.symm.trans how) ▸ he')

theorem Appended.taken {req : BlockRequest cfg.blockSize} (hm : Appended cfg ids s s' req ops y) :
    Serial.taken (s.entry req.block) (s'.entry req.block)
      = Serial.taken (s.entry req.block) y := by
  cases he : s.entry req.block with
  | some e => rfl
  | none =>
    -- an uncached block has no entry a chain could detach
    have hq : resetsOf ops = none := by
      have hshape := hm.built.shape
      rw [he] at hshape
      cases hshape with
      | keep hp | fill hp => exact hp.resets
      | clear pre hp => rw [resetsOf_append, hp.resets]; rfl
    rw [hm.entry, hq]; rfl

/-- **A request is mapped onto the end of the block's queue.** -/
theorem BlockInv.accept {req : BlockRequest cfg.blockSize} {scratch : Bytes}
    (h : BlockInv K s req.block w q) (hd : s.inDiscardProcess req.block = false)
    (hok : K.Ok (s.entry req.block) req) (hm : Appended cfg ids s s' req ops y)
    (hfree : ∀ e ∈ s.freeLru, (s.entries e).status = unpromoted) :
    BlockInv K s' req.block w (q ++ [⟨req, ops, ⟨req.data, scratch⟩, false,
      Serial.taken (s.entry req.block) (s'.entry req.block)⟩]) := by
  have ht : Serial.taken (s.entry req.block) (s'.entry req.block)
      = Serial.taken (s.entry req.block) y := hm.taken
  obtain ⟨hf, hq, hr⟩ := h.quiet hd
  cases q with
  | nil =>
    obtain ⟨v, hi, hwf, hv, hs, -⟩ := h
    refine ⟨by simp, y, y, ?_⟩
    have hall : ∀ took, allOps [(⟨req, ops, ⟨req.data, scratch⟩, false, took⟩ :
        Chain n cfg.blockSize)] = ops := by
      intro took
      rw [allOps_cons]; exact append_nil _
    have hfresh : ∀ e, s.entry req.block = none →
        (freesOf ops <|> s'.entry req.block) = some e → (s'.entries e).status = unpromoted := by
      intro e ha how
      rcases hm.fresh how with he | he
      · rw [ha] at he; cases he
      · rw [hm.entries]; exact hfree e he
    refine Busy.start rfl hm.built ht hok hi hwf rfl (hm.shows _ _ hv)
      (fun e he => hm.slot e v (hs e he)) ?_ .nil (fun h => absurd rfl h) ?_ ?_ ?_
    · intro e ha hy
      refine hfresh e ha ?_
      have hb := hm.built
      rw [ha, hy] at hb
      rw [hm.entry, hb.plain_of_fill.frees, hb.plain_of_fill.resets, hy]; rfl
    · rw [hall]; exact hm.entry
    · rw [hall]; exact hm.discard
    · intro e how ha _
      unfold owns at how
      rw [hall] at how
      exact hfresh e ha how
  | cons c cs =>
    obtain ⟨hblk, a, z, h⟩ := h
    have hz : s.entry req.block = z := by rw [h.entry, hq]; rfl
    have hr' := hr
    rw [allOps_cons, releasesOf_append, Bool.or_eq_false_iff] at hr'
    have hall : ∀ took, allOps (c :: (cs ++ [⟨req, ops, ⟨req.data, scratch⟩, false, took⟩]))
        = allOps (c :: cs) ++ ops := fun _ => allOps_snoc (c :: cs) _
    rw [cons_append]
    refine ⟨?_, a, y, ?_, h.rest, ?_, fun _ => hr'.1, ?_, ?_, ?_, ?_⟩
    · intro x hx
      rw [← cons_append] at hx
      rcases mem_append.mp hx with hx | hx
      · exact hblk x hx
      · rw [mem_singleton.mp hx]
    · exact h.running.frame (fun v => hm.shows _ v) (fun e _ v => hm.slot e v)
    · exact h.waiting.snoc hr'.2 (hz ▸ hm.built) (by rw [← hz]; exact ht) (hz ▸ hok) rfl
    · rw [hall, resetsOf_append, hq]; exact hm.entry
    · rw [hall, releasesOf_append, hr]; exact hm.discard
    · rw [hm.entries]; exact h.detached
    · intro e how hu
      unfold owns at how
      rw [hall, freesOf_append, hf] at how
      rw [hm.entries]
      rcases hm.fresh how with he | he
      · refine h.unfilled e ?_ hu
        unfold owns
        rw [hf]; exact he
      · exact hfree e he

/-! ## The other blocks -/

structure Unmoved (cfg : CacheConfig) (s s' : CacheState n) (b : Nat) (o : Option (Fin n)) :
    Prop where
  entry : s'.entry b = s.entry b
  discard : s'.inDiscardProcess b = s.inDiscardProcess b
  shows : ∀ v, Shows cfg s b v → Shows cfg s' b v
  slot : ∀ e ∈ o, ∀ v, Slot cfg s e v → Slot cfg s' e v

theorem Unmoved.status {o : Option (Fin n)} {e : Fin n} (h : Unmoved cfg s s' b o) (he : e ∈ o) :
    (s'.entries e).status = (s.entries e).status := by
  have hs : Slot cfg s e ⟨block cfg.blockSize (s.entries e).entryId.toNat s.cacheData,
    (s.entries e).status, s.cacheData, 0, false, false⟩ := ⟨rfl, rfl⟩
  exact (h.slot e he _ hs).status

/-- **A step of another block leaves the block as it was.** -/
theorem BlockInv.frame (h : BlockInv K s b w q)
    (hu : Unmoved cfg s s' b (owns q (s.entry b))) : BlockInv K s' b w q := by
  cases q with
  | nil =>
    obtain ⟨v, hi, hwf, hv, hs, hd⟩ := h
    have hown : owns ([] : List (Chain n cfg.blockSize)) (s.entry b) = s.entry b := rfl
    rw [hown] at hu
    refine ⟨v, hu.entry ▸ hi, hwf, hu.shows v hv, ?_, hu.discard.trans hd⟩
    intro e he
    rw [hu.entry] at he
    exact hu.slot e he v (hs e he)
  | cons c cs =>
    obtain ⟨hblk, a, z, h⟩ := h
    have hc : c.req.block = b := hblk c mem_cons_self
    refine ⟨hblk, a, z, ?_, h.rest, h.waiting, h.last, hu.entry.trans h.entry,
      hu.discard.trans h.discard, ?_, ?_⟩
    · exact h.running.frame (hc.symm ▸ hu.shows) (fun e he => hu.slot e (h.owns_of_inUse he))
    · intro e hf hq
      have hown : owns (c :: cs) (s.entry b) = some e := by
        unfold owns
        rw [allOps_cons, freesOf_append, hf]; rfl
      rw [hu.status hown]; exact h.detached e hf hq
    · intro e how huse
      rw [hu.entry] at how
      rw [hu.status how]; exact h.unfilled e how huse

end Block

/-! ## The whole cache -/

section Order

variable {bs : Nat} {P : Policy n bs} {s : Serial P} {b b' : Nat} {c : Chain n bs}
  {cs : List (Chain n bs)} {op : BlockOp n} {ops : List (BlockOp n)}

theorem InOrder.accept {req : BlockRequest bs} {scratch : Bytes} (h : InOrder s b) :
    InOrder (s.accept req scratch) b := by
  unfold InOrder at h ⊢
  by_cases hb : b = req.block
  · subst hb
    simp only [Serial.accept, update_self]
    rw [map_append, ← append_assoc, h]; rfl
  · simp only [Serial.accept, update_of_ne hb]
    exact h

theorem InOrder.send (h : InOrder s b') (hq : s.queue b = c :: cs) :
    InOrder (s.send b c cs op ops) b' := by
  unfold InOrder at h ⊢
  by_cases hb' : b' = b
  · subst hb'
    rw [hq] at h
    simp only [Serial.send, update_self]
    exact h
  · simp only [Serial.send, update_of_ne hb']
    exact h

theorem InOrder.finish (h : InOrder s b') (hq : s.queue b = c :: cs) :
    InOrder (s.finish b c cs) b' := by
  unfold InOrder at h ⊢
  by_cases hb' : b' = b
  · subst hb'
    rw [hq] at h
    simp only [Serial.finish, update_self]
    rw [map_append, append_assoc]; exact h
  · simp only [Serial.finish, update_of_ne hb']
    exact h

end Order

section Whole

variable {cfg : CacheConfig} {ids : Fin cfg.entriesCount → UInt32} {K K' : Contract cfg ids}
  {w₀ : Nat → Bytes} {s s' : Serial (policy cfg)} {b : Nat}
  {c : Chain cfg.entriesCount cfg.blockSize} {cs : List (Chain cfg.entriesCount cfg.blockSize)}
  {op : BlockOp cfg.entriesCount} {ops : List (BlockOp cfg.entriesCount)}

theorem Inv.busy (h : Inv K w₀ s) (hq : s.queue b = c :: cs) :
    (∀ x ∈ c :: cs, x.req.block = b) ∧ ∃ a z,
      Busy K s.pol b (flat (w₀ b) ((s.completed b).map Completion.req)) c cs a z := by
  have hblock := h.blocks b
  rw [hq] at hblock
  exact hblock

theorem slotOf_of_queue (hq : s.queue b = c :: cs) :
    slotOf s b = owns (c :: cs) (s.pol.entry b) := by
  unfold slotOf; rw [hq]

/-! ### A request is accepted -/

theorem slotOf_accept {req : BlockRequest cfg.blockSize} {scratch : Bytes}
    {x : Option (Fin cfg.entriesCount)} (hquiet : freesOf (allOps (s.queue req.block)) = none)
    (hother : ∀ b, b ≠ req.block → (CachePolicy.map cfg req s.pol).2.entry b = s.pol.entry b)
    (hx : (freesOf (CachePolicy.map cfg req s.pol).1
      <|> (CachePolicy.map cfg req s.pol).2.entry req.block) = x) :
    slotOf (s.accept req scratch) = update (slotOf s) req.block x := by
  funext b
  unfold slotOf owns
  by_cases hb : b = req.block
  · subst hb
    rw [update_self]
    simp only [Serial.accept, update_self]
    rw [allOps_snoc, freesOf_append, hquiet]; exact hx
  · rw [update_of_ne hb]
    simp only [Serial.accept, update_of_ne hb]
    rw [hother b hb]

theorem Inv.appended {req : BlockRequest cfg.blockSize} (h : Inv K w₀ s)
    (hd : s.pol.inDiscardProcess req.block = false) :
    ∃ y, Appended cfg ids s.pol (CachePolicy.map cfg req s.pol).2 req
      (CachePolicy.map cfg req s.pol).1 y := by
  have hmap : Mapped cfg ids req s.pol (CachePolicy.map cfg req s.pol) := by
    have hids : (fun e => (s.pol.entries e).entryId) = ids := funext h.ids
    rw [← hids]; exact map_cases cfg req s.pol
  exact hmap.appended hd

theorem Inv.block_accept {req : BlockRequest cfg.blockSize} {scratch : Bytes} (h : Inv K w₀ s)
    (hd : s.pol.inDiscardProcess req.block = false) {w : Bytes}
    (hb : BlockInv K' s.pol b w (s.queue b))
    (hok : req.block = b → K'.Ok (s.pol.entry b) req) :
    BlockInv K' (s.accept req scratch).pol b w ((s.accept req scratch).queue b) := by
  obtain ⟨y, hm⟩ := h.appended hd
  by_cases heq : b = req.block
  · subst heq
    simp only [Serial.accept, update_self]
    exact hb.accept hd (hok rfl) hm h.freeStatus
  · simp only [Serial.accept, update_of_ne heq]
    exact hb.frame ⟨(hm.other b heq).1, (hm.other b heq).2, hm.shows b, fun e _ => hm.slot e⟩

theorem Inv.accept {req : BlockRequest cfg.blockSize} {scratch : Bytes} (h : Inv K w₀ s)
    (hd : s.pol.inDiscardProcess req.block = false) (hok : K.Ok (s.pol.entry req.block) req) :
    Inv K w₀ (s.accept req scratch) := by
  obtain ⟨y, hm⟩ := h.appended hd
  have hquiet := ((h.blocks req.block).quiet hd).1
  have hother := fun b hb => (hm.other b hb).1
  have hown : slotOf s req.block = s.pol.entry req.block := by
    unfold slotOf owns; rw [hquiet]; rfl
  refine ⟨?_, hm.nodup h.nodup, fun b => (h.order b).accept, Serial.alive_accept h.alive,
    fun b => h.block_accept hd (h.blocks b) (fun hb => hb ▸ hok), ?_, ?_⟩
  · intro e
    simp only [Serial.accept]
    rw [hm.entries]; exact h.ids e
  · -- the block has the slot it had, or takes the head of `free_lru`
    rcases hm.owner with ⟨hf, ho⟩ | ⟨e, he, hn, hf, ho⟩
    · rw [slotOf_accept hquiet hother ho, ← hown, update_eq_self]
      simp only [Serial.accept]
      rw [hf]; exact h.pool
    · rw [slotOf_accept hquiet hother ho]
      simp only [Serial.accept]
      rw [hf]; exact h.pool.take he (hown.trans hn)
  · intro e he
    simp only [Serial.accept] at he ⊢
    rw [hm.entries]
    rcases hm.owner with ⟨hf, _⟩ | ⟨e', he', _, hf, _⟩
    · rw [hf] at he; exact h.freeStatus e he
    · rw [hf] at he; exact h.freeStatus e (mem_of_mem_erase he)

/-! ### An operation is sent -/

theorem slotOf_send {x : Option (Fin cfg.entriesCount)} (hc : c.req.block = b)
    (hx : owns ({ c with
        ops := ops, bufs := (CachePolicy.send cfg c.req op (c.bufs, s.pol)).1 } :: cs)
      ((CachePolicy.send cfg c.req op (c.bufs, s.pol)).2.entry b) = x) :
    slotOf (s.send b c cs op ops) = update (slotOf s) b x := by
  funext b'
  unfold slotOf
  by_cases hb' : b' = b
  · subst hb'
    simp only [Serial.send, update_self]
    exact hx
  · simp only [Serial.send, update_of_ne hb']
    rw [send_entry_of_ne (hc ▸ hb')]

section Send

variable {a z : Option (Fin cfg.entriesCount)} {w : Bytes} (h : Inv K w₀ s)
  (hq : s.queue b = c :: cs) (hbusy : Busy K s.pol b w c cs a z)

include h hq hbusy

theorem Inv.not_inUse_of_slotOf {b' : Nat} {e : Fin cfg.entriesCount} (hb' : b' ≠ b)
    (he : slotOf s b' = some e) : e ∉ inUse c.ops a := fun hu =>
  hb' (h.pool.inj b' b e he ((slotOf_of_queue hq).trans (hbusy.owns_of_inUse hu)))

theorem Inv.not_inUse_of_free {e : Fin cfg.entriesCount} (he : e ∈ s.pol.freeLru) :
    e ∉ inUse c.ops a := fun hu =>
  h.pool.disjoint e he b ((slotOf_of_queue hq).trans (hbusy.owns_of_inUse hu))

variable (hops : c.ops = op :: ops)

include hops

theorem Inv.unmoved_send (hinj : Injective ids) (hc : c.req.block = b) {b' : Nat}
    (hb' : b' ≠ b) :
    Unmoved cfg s.pol (CachePolicy.send cfg c.req op (c.bufs, s.pol)).2 b' (slotOf s b') where
  entry := send_entry_of_ne (hc ▸ hb')
  discard := by
    rw [send_inDiscardProcess]
    split
    · rw [update_of_ne (hc ▸ hb')]
    · rfl
  shows := fun v => send_shows_other (hc ▸ hb')
  slot := fun e he v => by
    have hrest : Rest ids a (op :: ops) := hops ▸ hbusy.rest
    refine send_slot_other hrest.head_uses h.ids hinj ?_
    rw [← hops]
    exact h.not_inUse_of_slotOf hq hbusy hb' he

theorem Inv.pool_send (hc : c.req.block = b) :
    Pool (slotOf (s.send b c cs op ops)) (s.send b c cs op ops).pol.freeLru := by
  have hmine := slotOf_of_queue hq
  show Pool _ (CachePolicy.send cfg c.req op (c.bufs, s.pol)).2.freeLru
  rw [send_freeLru]
  cases hf : frees op with
  | none =>
    rw [slotOf_send hc (hbusy.owns_send hops hf), ← hmine, update_eq_self]
    exact h.pool
  | some e =>
    obtain ⟨h1, h2⟩ := hbusy.owns_send_of_frees hops hf
    rw [slotOf_send hc h2]
    exact h.pool.give (hmine.trans h1)

theorem Inv.freeStatus_send (hinj : Injective ids) {e : Fin cfg.entriesCount}
    (he : e ∈ (CachePolicy.send cfg c.req op (c.bufs, s.pol)).2.freeLru) :
    ((CachePolicy.send cfg c.req op (c.bufs, s.pol)).2.entries e).status = unpromoted := by
  have hrest : Rest ids a (op :: ops) := hops ▸ hbusy.rest
  -- what was free before is not what the operation works on
  have hold : e ∈ s.pol.freeLru →
      ((CachePolicy.send cfg c.req op (c.bufs, s.pol)).2.entries e).status = unpromoted := by
    intro he
    have hnot := h.not_inUse_of_free hq hbusy he
    rw [hops] at hnot
    rw [send_status_other hrest.head_uses h.ids hinj hnot]
    exact h.freeStatus e he
  rw [send_freeLru] at he
  cases hf : frees op with
  | none => rw [hf] at he; exact hold he
  | some e' =>
    rw [hf] at he
    rcases mem_touchKey.mp he with rfl | he
    · obtain ⟨comp, rfl⟩ := frees_eq_some hf
      refine hbusy.detached e (by rw [hops, freesOf_cons, hf]; rfl) ?_
      rw [hops, resetsOf_cons, (hrest.tail_of_frees hf).2]; rfl
    · exact hold he

end Send

theorem Inv.block_send (hinj : Injective ids) (h : Inv K w₀ s)
    (hq : s.queue b = c :: cs) (hops : c.ops = op :: ops) {b' : Nat} {w : Bytes}
    (hb : BlockInv K' s.pol b' w (s.queue b')) :
    BlockInv K' (s.send b c cs op ops).pol b' w ((s.send b c cs op ops).queue b') := by
  obtain ⟨hblk, a, z, hbusy⟩ := h.busy hq
  have hc : c.req.block = b := hblk c mem_cons_self
  by_cases hb' : b' = b
  · subst hb'
    rw [hq] at hb
    obtain ⟨_, a', z', hbusy'⟩ := hb
    simp only [Serial.send, update_self]
    exact ⟨forall_mem_cons.mpr (forall_mem_cons.mp hblk), a', z',
      hbusy'.send hops hc h.ids hinj h.nodup⟩
  · simp only [Serial.send, update_of_ne hb']
    exact hb.frame (h.unmoved_send hq hbusy hops hinj hc hb')

theorem Inv.send (hinj : Injective ids) (h : Inv K w₀ s) (hq : s.queue b = c :: cs)
    (hops : c.ops = op :: ops) : Inv K w₀ (s.send b c cs op ops) := by
  obtain ⟨hblk, a, z, hbusy⟩ := h.busy hq
  have hc : c.req.block = b := hblk c mem_cons_self
  exact ⟨fun e => (send_entryId e).trans (h.ids e), send_nodup h.nodup,
    fun b' => (h.order b').send hq, Serial.alive_send h.alive hq,
    fun b' => h.block_send hinj hq hops (h.blocks b'),
    h.pool_send hq hbusy hops hc, fun e he => h.freeStatus_send hq hbusy hops hinj he⟩

/-! ### A chain ends -/

theorem slotOf_finish (hq : s.queue b = c :: cs) (hops : c.ops = []) :
    slotOf (s.finish b c cs) = slotOf s := by
  funext b'
  unfold slotOf
  by_cases hb' : b' = b
  · subst hb'
    simp only [Serial.finish, update_self]
    unfold owns
    rw [hq, allOps_cons, hops]; rfl
  · simp only [Serial.finish, update_of_ne hb']

theorem block_finish (hq : s.queue b = c :: cs) (hops : c.ops = []) {b' : Nat} {w : Bytes}
    (hb : BlockInv K' s.pol b' (flat w ((s.completed b').map Completion.req)) (s.queue b')) :
    BlockInv K' (s.finish b c cs).pol b' (flat w (((s.finish b c cs).completed b').map
      Completion.req)) ((s.finish b c cs).queue b') := by
  by_cases hb' : b' = b
  · subst hb'
    rw [hq] at hb
    simp only [Serial.finish, update_self]
    rw [map_append, map_singleton, flat_snoc]
    exact hb.finish hops
  · simp only [Serial.finish, update_of_ne hb']
    exact hb

theorem Inv.finish (h : Inv K w₀ s) (hq : s.queue b = c :: cs) (hops : c.ops = []) :
    Inv K w₀ (s.finish b c cs) :=
  ⟨h.ids, h.nodup, fun b' => (h.order b').finish hq, Serial.alive_finish h.alive hq,
    fun b' => block_finish hq hops (h.blocks b'), slotOf_finish hq hops ▸ h.pool, h.freeStatus⟩

/-! ### Runs -/

/-- **One step keeps the invariant.** -/
theorem Inv.step {act : Serial.Act cfg.blockSize} (hinj : Injective ids)
    (h : Inv K w₀ s) (hok : K.Allows s act) (hs : s.step act = some s') : Inv K w₀ s' := by
  rcases Serial.step_cases hs with ⟨req, scratch, rfl, hd, rfl⟩
    | ⟨b, c, cs, op, ops, rfl, hq, _, hops, _, rfl⟩ | ⟨b, r, c, cs, op, ops, rfl, _⟩
    | ⟨b, c, cs, rfl, hq, _, hops, rfl⟩
  · exact h.accept hd hok
  · exact h.send hinj hq hops
  · cases hok
  · exact h.finish hq hops

theorem Inv.block_step {act : Serial.Act cfg.blockSize} {w : Bytes}
    (hinj : Injective ids) (h : Inv K w₀ s) (hallows : K.Allows s act)
    (hb : BlockInv K' s.pol b (flat w ((s.completed b).map Completion.req)) (s.queue b))
    (hok : ∀ req scratch, act = .accept req scratch → req.block = b → K'.Ok (s.pol.entry b) req)
    (hs : s.step act = some s') :
    BlockInv K' s'.pol b (flat w ((s'.completed b).map Completion.req)) (s'.queue b) := by
  rcases Serial.step_cases hs with ⟨req, scratch, rfl, hd, rfl⟩
    | ⟨b, c, cs, op, ops, rfl, hq, _, hops, _, rfl⟩ | ⟨b, r, c, cs, op, ops, rfl, _⟩
    | ⟨b, c, cs, rfl, hq, _, hops, rfl⟩
  · exact h.block_accept hd hb (hok req scratch rfl)
  · exact h.block_send hinj hq hops hb
  · cases hallows
  · exact block_finish hq hops hb

/-- **Every run the contract is about keeps the invariant.** -/
theorem Inv.reachable {s₀ : Serial (policy cfg)} (hinj : Injective ids)
    (hinit : Inv K w₀ s₀) (hr : Machine.Reachable Serial.step K.Allows s₀ s) : Inv K w₀ s :=
  hr.invariant hinit fun _ _ _ h hok hs => h.step hinj hok hs

/-! ## What READs return -/

def Contract.Answers (K : Contract cfg ids) : Prop :=
  ∀ {a req ops a' w m v}, Built cfg ids a req ops a' → K.Ok a req → K.Idle w a v →
    v.Wf cfg.blockSize → m.dataPtr = req.data →
    HDCS.Answers req w (Cell.run cfg req ops (m, v)).1.dataPtr

def Answered (w₀ : Nat → Bytes) (s : Serial (policy cfg)) : Prop :=
  ∀ b (i : Nat) c, (s.completed b)[i]? = some c →
    HDCS.Answers c.req (flat (w₀ b) (((s.completed b).take i).map Completion.req)) c.data

theorem Answered.finish (hK : K.Answers) (h : Inv K w₀ s) (ha : Answered w₀ s)
    (hq : s.queue b = c :: cs) (hops : c.ops = []) : Answered w₀ (s.finish b c cs) := by
  intro b' i x hx
  by_cases hb' : b' = b
  · subst hb'
    simp only [Serial.finish, update_self] at hx ⊢
    rcases Nat.lt_trichotomy i (s.completed b').length with hi | hi | hi
    · rw [getElem?_append_left hi] at hx
      rw [take_append_of_le_length (by omega)]
      exact ha b' i x hx
    · subst hi
      rw [getElem?_append_right (by omega), Nat.sub_self] at hx
      cases hx
      rw [take_left]
      obtain ⟨_, a, z, hbusy⟩ := h.busy hq
      obtain ⟨a₀, done, m, v, hb, _, hok, hi, hwf, hd, hbufs, _⟩ := hbusy.running
      rw [hops, append_nil] at hb
      dsimp only
      rw [hbufs]
      exact hK hb hok hi hwf hd
    · rw [getElem?_eq_none (by simp; omega)] at hx
      cases hx
  · simp only [Serial.finish, update_of_ne hb'] at hx ⊢
    exact ha b' i x hx

/-- **Every READ of such a run returns what the flat array holds.** -/
theorem Answered.reachable {s₀ : Serial (policy cfg)} (hinj : Injective ids)
    (hK : K.Answers) (hinit : Inv K w₀ s₀) (hnone : ∀ b, s₀.completed b = [])
    (hr : Machine.Reachable Serial.step K.Allows s₀ s) : Inv K w₀ s ∧ Answered w₀ s := by
  have hstart : Answered w₀ s₀ := by
    intro b i c hc
    rw [hnone b] at hc; cases hc
  refine hr.invariant (I := fun s => Inv K w₀ s ∧ Answered w₀ s) ⟨hinit, hstart⟩ ?_
  rintro s act s' ⟨h, ha⟩ hok hs
  refine ⟨h.step hinj hok hs, ?_⟩
  rcases Serial.step_cases hs with ⟨req, scratch, rfl, hd, rfl⟩
    | ⟨b, c, cs, op, ops, rfl, hq, _, hops, _, rfl⟩ | ⟨b, r, c, cs, op, ops, rfl, _⟩
    | ⟨b, c, cs, rfl, hq, _, hops, rfl⟩
  · exact ha
  · exact ha
  · cases hok
  · exact ha.finish hK h hq hops

theorem Inv.completed_take (h : Inv K w₀ s) (i : Nat) (hi : i ≤ (s.completed b).length) :
    ((s.completed b).take i).map Completion.req = (s.accepted b).take i := by
  have ho : (s.completed b).map Completion.req ++ (s.queue b).map Chain.req = s.accepted b :=
    h.order b
  rw [← ho, take_append_of_le_length (by rw [length_map]; exact hi), map_take]

theorem Inv.progress (h : Inv K w₀ s) (hid : ∀ e, ids e ≤ maxBlockId) (hq : s.queue b ≠ []) :
    ∃ act s', (act = .send b ∨ act = .finish b) ∧ s.step act = some s' := by
  cases hqb : s.queue b with
  | nil => exact absurd hqb hq
  | cons c cs =>
    obtain ⟨_, a, z, hbusy⟩ := h.busy hqb
    have hf : c.failed = false := h.alive b c (by rw [hqb]; exact mem_cons_self)
    have hrest := hbusy.rest
    cases hops : c.ops with
    | nil => exact ⟨.finish b, _, Or.inr rfl, Serial.step_finish hqb hf hops⟩
    | cons op ops =>
      have hassert : op.assertion = true := by
        rw [hops] at hrest
        have hu := hrest.head_uses
        cases op with
        | updateCacheMeta st x i =>
          cases st with
          | none => rw [show i = 0 from hu]; rfl
          | some e => rw [hu.2]; exact decide_eq_true (hid e)
        | _ => rfl
      exact ⟨.send b, _, Or.inl rfl, Serial.step_send hqb hf hops hassert⟩

end Whole

end HDCS.Proof
