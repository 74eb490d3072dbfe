import HDCS.Proof.Ownership

/-!
# A miss that fails

`map` takes an entry from `free_lru` and attaches it to the block before any of
the chain's I/O is done, and leaves it to the last operations of the chain to
record that the slot now holds the block. An operation that fails skips them, and
nothing else undoes what `map` did. So after a failed READ or WRITE miss the
block is attached to an entry that says nothing: its status is `UNPROMOTED`, its
metadata word is zero, and a later READ of the block is sent to the slot.
-/

namespace HDCS.Proof

open Lib LruList CachePolicy Lib.Machine List

variable {n : Nat}

section Chains

variable {cfg : CacheConfig} {req : BlockRequest cfg.blockSize} {ids : Fin n → UInt32}
  {a : Option (Fin n)} {e : Fin n} {x : Bufs × Cell}

theorem Controlled.moved {ops : List (BlockOp n)} (h : Controlled ids a x.2)
    (hall : ops.all moves = true) : Controlled ids a (Cell.run cfg req ops x).2 := by
  induction ops generalizing x with
  | nil => exact h
  | cons op ops ih =>
    rw [all_cons, Bool.and_eq_true] at hall
    exact ih (h.move hall.1) hall.2

theorem recordWrite_split (comp : Option TimeoutComp) :
    ∃ pre tail : List (BlockOp n), recordWrite cfg e (ids e) comp = pre ++ tail
      ∧ pre.all moves = true ∧ tail.all (fun op => !op.fallible) = true := by
  unfold recordWrite
  split
  · exact ⟨[], _, rfl, rfl, rfl⟩
  · exact ⟨[.writeToBackend .dataPtr], _, rfl, rfl, rfl⟩

theorem Built.fill_split {ops : List (BlockOp n)} (h : Built cfg ids none req ops (some e)) :
    ∃ pre tail, ops = pre ++ tail ∧ pre.all moves = true
      ∧ tail.all (fun op => !op.fallible) = true := by
  cases h with
  | readMiss comp _ =>
    unfold CachePolicy.readMiss
    split
    · exact ⟨[.promoteBlockFromBackend .blockBuffer, .writeBlockToCache _ .blockBuffer,
        .readFromBuffer, .demoteBlockBuffer], _, rfl, rfl, rfl⟩
    · exact ⟨[.promoteBlockFromBackend .dataPtr, .writeBlockToCache _ .dataPtr], _, rfl, rfl, rfl⟩
  | writeMiss comp _ _ =>
    obtain ⟨pre, tail, hx, hpre, htail⟩ := @recordWrite_split _ cfg ids e comp
    unfold CachePolicy.writeMiss
    rw [hx]
    split
    · exact ⟨[.promoteFromBackend .blockBuffer, .writeToBuffer,
        .writeBlockToCache _ .blockBuffer, .demoteBlockBuffer] ++ pre, tail,
        by rw [append_assoc], by rw [all_append, hpre]; rfl, htail⟩
    · exact ⟨.writeBlockToCache _ .dataPtr :: pre, tail, rfl, by rw [all_cons, hpre]; rfl, htail⟩

theorem Built.moved_of_fallible {done ops : List (BlockOp n)} {op : BlockOp n}
    (h : Built cfg ids none req (done ++ op :: ops) (some e)) (hop : op.fallible = true) :
    done.all moves = true := by
  obtain ⟨pre, tail, hx, hpre, htail⟩ := h.fill_split
  rcases append_eq_append_iff.mp hx with ⟨as, hp, _⟩ | ⟨bs, _, ht⟩
  · rw [hp, all_append, Bool.and_eq_true] at hpre
    exact hpre.1
  · have hmem := all_eq_true.mp htail op (by rw [ht]; simp)
    rw [hop] at hmem; exact Bool.noConfusion hmem

end Chains

/-- The entry is free and the block has none, or it is attached and says so. -/
def Intact {cfg : CacheConfig} (s : CacheState cfg.entriesCount) (b : Nat)
    (e : Fin cfg.entriesCount) : Prop :=
  e ∈ s.freeLru ∧ s.entry b = none
  ∨ s.entry b = some e
    ∧ ((s.entries e).status = promotedUnflushed ∨ (s.entries e).status = flushed)
    ∧ s.blockMeta b = (s.entries e).status ||| (s.entries e).entryId

instance {cfg : CacheConfig} (s : CacheState cfg.entriesCount) (b : Nat)
    (e : Fin cfg.entriesCount) : Decidable (Intact s b e) :=
  inferInstanceAs (Decidable (_ ∧ _ ∨ _ ∧ (_ ∨ _) ∧ _))

section FailedMiss

variable {cfg : CacheConfig} {ids : Fin cfg.entriesCount → UInt32} {w₀ : Nat → Bytes}
  {s : Serial (policy cfg)} {b : Nat} {c : Chain cfg.entriesCount cfg.blockSize}
  {cs : List (Chain cfg.entriesCount cfg.blockSize)} {e : Fin cfg.entriesCount}

theorem taken_eq_some {a a' : Option (Fin n)} {e : Fin n} (h : Serial.taken a a' = some e) :
    a = none ∧ a' = some e := by
  cases a with
  | none => exact ⟨rfl, h⟩
  | some _ => cases h

theorem Inv.unrecorded {op : BlockOp cfg.entriesCount} {ops : List (BlockOp cfg.entriesCount)}
    (h : Inv (control cfg ids) w₀ s) (hq : s.queue b = c :: cs) (ht : c.took = some e)
    (hops : c.ops = op :: ops) (hop : op.fallible = true) :
    s.pol.entry b = some e ∧ e ∉ s.pol.freeLru ∧ (s.pol.entries e).status = unpromoted
      ∧ s.pol.blockMeta b = 0 := by
  have hblock := h.blocks b
  rw [hq] at hblock
  obtain ⟨hblk, a, z, hbusy⟩ := h.busy hq
  obtain ⟨a₀, done, m, v, hb, htook, _, hi, _, _, _, hv, hs⟩ := hbusy.running
  obtain ⟨rfl, rfl⟩ := taken_eq_some (htook.symm.trans ht)
  have hplain : PlainOn ids (some e) c.ops :=
    fun x hx => hb.plain_of_fill x (mem_append_right _ hx)
  have huse : e ∈ inUse c.ops (some e) := by unfold inUse; rw [hplain.frees]; rfl
  have hctl : Controlled ids none (Cell.run cfg c.req done (m, v)).2 := by
    rw [hops] at hb
    exact Controlled.moved hi (hb.moved_of_fallible hop)
  have hown := hbusy.owns_of_inUse huse
  refine ⟨?_, ?_, (hs e huse).status.trans hctl.1, ?_⟩
  · rcases hblock.slot_cases hown with he | ⟨_, c', hc', _, hf, _⟩
    · exact he
    · rw [← (List.cons.inj hc').1, hplain.frees] at hf; cases hf
  · intro hfree
    exact h.pool.disjoint e hfree b (by unfold slotOf; rw [hq]; exact hown)
  · rw [hblk c mem_cons_self] at hv
    exact hv.word.trans hctl.2.1

end FailedMiss

/--
**A miss that fails never leaves the mapping intact**, whichever of its operations
fails, and a later READ of the block is sent to the slot it did not fill.
-/
theorem failed_miss_not_intact (cfg : CacheConfig) (cacheData backData : Bytes)
    (s s' : Serial (policy cfg))
    (hr : Reachable Serial.step ErrorFree
      (Serial.start (P := policy cfg) (fresh cfg cacheData backData)) s)
    (b : Nat) (r : Int) (c : Chain cfg.entriesCount cfg.blockSize)
    (cs : List (Chain cfg.entriesCount cfg.blockSize)) (e : Fin cfg.entriesCount)
    (hq : s.queue b = c :: cs) (ht : c.took = some e) (hs : s.step (.fail b r) = some s') :
    ¬ Intact s'.pol b e
      ∧ ∀ req : BlockRequest cfg.blockSize, req.ioType = .read → req.block = b →
          ∃ d ops, (map cfg req s'.pol).1
            = .readBlockFromCache (s'.pol.entries e).entryId.toNat d :: ops := by
  obtain ⟨c', cs', op, ops, hq', hops, hop, rfl⟩ := Serial.of_step_fail hs
  rw [hq] at hq'
  obtain ⟨rfl, rfl⟩ := List.cons.inj hq'
  obtain ⟨he, hnf, hst, _⟩ := (control_reachable hr).unrecorded hq ht hops hop
  -- the failure leaves the cache as the operations before it did
  have hpol : (s.fail b r c cs).pol = s.pol := rfl
  rw [hpol]
  refine ⟨?_, ?_⟩
  · rintro (⟨hf, _⟩ | ⟨_, hs, _⟩)
    · exact hnf hf
    · rw [hst] at hs
      exact absurd hs (by decide)
  · intro req hio hb
    exact map_read_of_entry hio (hb ▸ he)

/-- A READ miss is mapped on a fresh cache and its promotion fails. -/
theorem failed_promote : ∃ s : Serial (policy (smallCache 0 .writeBack)),
    Reachable Serial.step (fun _ _ => True) (smallStart 0 .writeBack) s
      ∧ (s.completed 0).map Completion.r = [-5] ∧ ∀ e, ¬ Intact s.pol 0 e := by
  have hrun : (run Serial.step (fun _ _ => True) (smallStart 0 .writeBack)
      [.accept (wholeRequest .read 0 0) (fun _ => 0), .fail 0 (-5)]).map
      (fun s => decide ((s.completed 0).map Completion.r = [-5] ∧ ∀ e, ¬ Intact s.pol 0 e))
      = some true := by decide +kernel
  exact Reachable.of_run_decide hrun

/-- The promotion of a READ miss fails on an otherwise idle cache. -/
theorem failed_promote_not_intact : ∃ s s' : Serial (policy (smallCache 0 .writeBack)),
    ∃ e, s.step (.fail 0 (-5)) = some s' ∧ ¬ Intact s'.pol 0 e := by
  have hrun : (run Serial.step ErrorFree (smallStart 0 .writeBack)
      [.accept (wholeRequest .read 0 0) (fun _ => 0)]).map
      (fun s => decide ((s.queue 0).map Chain.took = [some ⟨0, by decide⟩])
        && (s.step (.fail 0 (-5))).isSome) = some true := by decide +kernel
  obtain ⟨s, hr, hp⟩ := Reachable.of_run_test hrun
  rw [Bool.and_eq_true] at hp
  obtain ⟨s', hs'⟩ := Option.isSome_iff_exists.mp hp.2
  have htook := of_decide_eq_true hp.1
  cases hq : s.queue 0 with
  | nil => rw [hq] at htook; cases htook
  | cons c cs =>
    rw [hq, map_cons] at htook
    have h := failed_miss_not_intact _ _ _ s s' hr 0 (-5) c cs _ hq (List.cons.inj htook).1 hs'
    exact ⟨s, s', _, hs', h.1⟩

end HDCS.Proof
