import HDCS.Lib.Bytes
import HDCS.Proof.Batch

/-!
# The bytes of a batch

What `submit_request` writes for the blocks that were handed in. A segment is good if it is a run:
its blocks follow each other, and so do the buffers of these very blocks (`IsRun`). As
`prepare_request` joins by address only, what it joins is a run where buffers that touch belong to
blocks that do. Then every segment of the map is a run, none of the blocks is lost (`Chained`),
and the writes of the segments bring every block what writing it alone would.

Where two buffers touch and their blocks do not follow each other, the batch is misplaced in one
order of the calls at least: the buffers come in by their addresses, from one that touches nothing
before it up to the first that does not follow. They are one segment then, and
wherever the last of them goes, it goes behind the others (`Anchored`).

Some blocks may be in two segments: a segment that the loop has put into the map and then joined
with the one before it stays. They bring the same bytes.
-/

namespace HDCS.Proof

open Lib List

variable {bs : Nat} {calls : List Prepared} {x y : Segment} {p : Prepared}

/-- The data store after `submit_request`; `memory` is what the buffers hold. -/
def submitted (bs : Nat) (memory : Bytes) (ops : List SubmitOp) (store : Bytes) : Bytes :=
  (segments ops).foldl (fun w x => memcpy w (x.block * bs) memory x.data x.length) store

/-- The data store after the blocks have been written one by one. -/
def writtenBlocks (bs : Nat) (memory : Bytes) (calls : List Prepared) (store : Bytes) : Bytes :=
  calls.foldl (fun w p => memcpy w (p.block * bs) memory p.data bs) store

/-- Buffers that touch belong to blocks that do. -/
def BuffersFollow (bs : Nat) (calls : List Prepared) : Prop :=
  ∀ p ∈ calls, ∀ q ∈ calls, p.data + bs = q.data → q.block = p.block + 1

def nth (bs : Nat) (x : Segment) (k : Nat) : Prepared := ⟨x.block + k, x.data + k * bs⟩

theorem nth_next {n : Nat} (hblock : y.block = x.block + n) (hdata : y.data = x.data + n * bs)
    (k : Nat) : nth bs y k = nth bs x (n + k) := by
  unfold nth
  rw [hblock, hdata, Nat.add_mul, Nat.add_assoc, Nat.add_assoc]

def IsRun (bs : Nat) (calls : List Prepared) (x : Segment) : Prop :=
  ∃ n, 0 < n ∧ x.length = n * bs ∧ ∀ k < n, nth bs x k ∈ calls

def Brings (bs : Nat) (x : Segment) (p : Prepared) : Prop :=
  ∃ k, k * bs < x.length ∧ p = nth bs x k

theorem IsRun.mono {calls' : List Prepared} (h : IsRun bs calls x) (hsub : calls ⊆ calls') :
    IsRun bs calls' x := by
  obtain ⟨n, hn, hlen, hmem⟩ := h
  exact ⟨n, hn, hlen, fun k hk => hsub (hmem k hk)⟩

theorem IsRun.first (h : IsRun bs calls x) : ⟨x.block, x.data⟩ ∈ calls := by
  obtain ⟨n, hn, -, hmem⟩ := h
  have hfirst := hmem 0 hn
  unfold nth at hfirst
  rwa [Nat.zero_mul, Nat.add_zero, Nat.add_zero] at hfirst

/-- **Two runs whose buffers touch** are one run, and nothing of them is lost. -/
theorem IsRun.join (horder : BuffersFollow bs calls) (hx : IsRun bs calls x) (hy : IsRun bs calls y)
    (htouch : x.data + x.length = y.data) :
    IsRun bs calls ⟨x.block, x.length + y.length, x.data⟩
      ∧ (∀ p, Brings bs x p → Brings bs ⟨x.block, x.length + y.length, x.data⟩ p)
      ∧ ∀ p, Brings bs y p → Brings bs ⟨x.block, x.length + y.length, x.data⟩ p := by
  have hfirst := hy.first
  obtain ⟨n, hn, hlen, hmem⟩ := hx
  obtain ⟨n', hn', hlen', hmem'⟩ := hy
  obtain ⟨n, rfl⟩ : ∃ k, n = k + 1 := ⟨n - 1, by omega⟩
  -- the last buffer of the one touches the first of the other, so their blocks follow each other
  have hlast := hmem n (Nat.lt_succ_self n)
  have hdata : y.data = x.data + (n + 1) * bs := by rw [← htouch, hlen]
  have hblock : y.block = x.block + (n + 1) := by
    refine horder _ hlast _ hfirst ?_
    dsimp only [nth]
    rw [hdata, Nat.add_mul, Nat.one_mul, Nat.add_assoc]
  refine ⟨⟨n + 1 + n', by omega, ?_, fun k hk => ?_⟩, ?_, ?_⟩
  · dsimp only
    rw [hlen, hlen', Nat.add_mul (n + 1)]
  · rcases Nat.lt_or_ge k (n + 1) with hlt | hge
    · exact hmem k hlt
    · have hk := hmem' (k - (n + 1)) (by omega)
      rwa [nth_next hblock hdata, Nat.add_sub_cancel' hge] at hk
  · intro p ⟨k, hk, hp⟩
    exact ⟨k, Nat.lt_add_right _ hk, hp⟩
  · intro p ⟨k, hk, hp⟩
    refine ⟨n + 1 + k, ?_, hp.trans (nth_next hblock hdata k)⟩
    dsimp only
    rw [Nat.add_mul, ← hlen]
    exact Nat.add_lt_add_left hk _

/-! ## The loop -/

structure Runs (bs : Nat) (calls : List Prepared) (m : Merge) : Prop where
  carried : m.Carried
  chain : ∀ x ∈ m.chain, IsRun bs calls x
  entry : IsRun bs calls m.entry
  covers : ∀ p ∈ calls, Brings bs m.entry p ∨ ∃ x ∈ m.chain, Brings bs x p

/-- **A round keeps it.** -/
theorem Runs.visit {m : Merge} {cur : Segment} (horder : BuffersFollow bs calls)
    (h : Runs bs calls m) (hcur : cur ∈ m.chain) : Runs bs calls (m.visit cur) := by
  have hcarried := h.carried.visit hcur
  have hunique : ∀ x ∈ m.chain, x.block = cur.block → x = cur := fun x hx hb =>
    Merge.eq_of_block_eq h.carried.nodup hx hcur hb
  rcases Merge.visit_cases cur h.carried.pos with ⟨heq, _⟩ | ⟨htouch, heq⟩ | ⟨htouch, _, heq⟩
  · rw [heq]
    exact h
  -- `cur` is made longer; the carried segment stays in the map if it is there
  · obtain ⟨hrun, hleft, hright⟩ := (h.chain cur hcur).join horder h.entry htouch
    rw [heq] at hcarried ⊢
    refine ⟨hcarried, fun x hx => ?_, hrun, fun p hp => ?_⟩
    · rcases SegmentChain.mem_assign_iff.mp hx with rfl | ⟨hx, -⟩
      · exact hrun
      · exact h.chain x hx
    · rcases h.covers p hp with hentry | ⟨x, hx, hbrings⟩
      · exact .inl (hright p hentry)
      · by_cases hb : x.block = cur.block
        · rw [hunique x hx hb] at hbrings
          exact .inl (hleft p hbrings)
        · exact .inr ⟨x, SegmentChain.mem_assign_iff.mpr (.inr ⟨hx, hb⟩), hbrings⟩
  -- `cur` goes, and what was there for the block of the carried segment is that segment
  · obtain ⟨hrun, hleft, hright⟩ := h.entry.join horder (h.chain cur hcur) htouch
    rw [heq] at hcarried ⊢
    refine ⟨hcarried, fun x hx => ?_, hrun, fun p hp => ?_⟩
    · rcases SegmentChain.mem_assign_iff.mp (SegmentChain.mem_erase.mp hx).1 with rfl | ⟨hx, -⟩
      · exact hrun
      · exact h.chain x hx
    · rcases h.covers p hp with hentry | ⟨x, hx, hbrings⟩
      · exact .inl (hleft p hentry)
      · by_cases hb : x.block = cur.block
        · rw [hunique x hx hb] at hbrings
          exact .inl (hright p hbrings)
        · by_cases hm : x.block = m.blockId
          · cases hins : m.inserted with
            | false => exact absurd (hm ▸ mem_map_of_mem hx) (h.carried.fresh hins)
            | true =>
              have hx : x = m.entry :=
                Merge.eq_of_block_eq h.carried.nodup hx (h.carried.here hins) hm
              exact .inl (hleft p (hx ▸ hbrings))
          · exact .inr ⟨x, SegmentChain.mem_erase.mpr
              ⟨SegmentChain.mem_assign_iff.mpr (.inr ⟨hx, hm⟩), hb⟩, hbrings⟩

/-! ## The map -/

structure Chained (bs : Nat) (calls : List Prepared) (c : SegmentChain) : Prop where
  nodup : c.keys.Nodup
  runs : ∀ x ∈ c, IsRun bs calls x
  covers : ∀ p ∈ calls, ∃ x ∈ c, Brings bs x p

/-- **What `prepare_request` keeps.** -/
theorem Chained.prepare {c : SegmentChain} (hbs : 0 < bs) (h : Chained bs calls c)
    (hfresh : p.block ∉ calls.map Prepared.block) (horder : BuffersFollow bs (calls ++ [p])) :
    Chained bs (calls ++ [p]) (prepareRequest bs p.block p.data c) := by
  have hkeys : p.block ∉ c.keys := by
    intro hmem
    obtain ⟨x, hx, hb⟩ := mem_map.mp hmem
    exact hfresh (mem_map.mpr ⟨_, (h.runs x hx).first, hb⟩)
  have hstart : Runs bs (calls ++ [p]) ⟨c, p.block, bs, p.data, false⟩ := by
    refine ⟨Merge.carried_start p.data hbs h.nodup hkeys,
      fun x hx => (h.runs x hx).mono (subset_append_left _ _),
      ⟨1, Nat.one_pos, (Nat.one_mul bs).symm, fun k hk => ?_⟩, fun q hq => ?_⟩
    · obtain rfl : k = 0 := Nat.lt_one_iff.mp hk
      unfold nth
      rw [Nat.zero_mul]
      exact mem_append_right _ mem_cons_self
    · rcases mem_append.mp hq with hq | hq
      · exact .inr (h.covers q hq)
      · rw [mem_singleton.mp hq]
        exact .inl ⟨0, (Nat.zero_mul bs).symm ▸ hbs, by unfold nth; rw [Nat.zero_mul]; rfl⟩
  have hloop := Merge.loop_invariant (I := Runs bs (calls ++ [p]))
    (fun m cur hm hcur => hm.visit horder hcur) (c.length + 1) (c.head?.map Segment.block) _ hstart
  unfold prepareRequest
  dsimp only
  split
  · rename_i hins
    refine ⟨hloop.carried.nodup, hloop.chain, fun q hq => ?_⟩
    rcases hloop.covers q hq with hentry | hchain
    · exact ⟨_, hloop.carried.here hins, hentry⟩
    · exact hchain
  · rename_i hins
    have hout := hloop.carried.fresh (Bool.eq_false_iff.mpr hins)
    refine ⟨SegmentChain.nodup_assign hloop.carried.nodup _, fun x hx => ?_, fun q hq => ?_⟩
    · rcases SegmentChain.mem_assign_iff.mp hx with rfl | ⟨hx, -⟩
      · exact hloop.entry
      · exact hloop.chain x hx
    · rcases hloop.covers q hq with hentry | ⟨x, hx, hbrings⟩
      · exact ⟨_, SegmentChain.mem_assign _ _, hentry⟩
      · exact ⟨x, SegmentChain.mem_assign_iff.mpr
          (.inr ⟨hx, fun hb => hout (mem_map.mpr ⟨x, hx, hb⟩)⟩), hbrings⟩

theorem prepareAll_induction {I : List Prepared → SegmentChain → Prop} (hnil : I [] [])
    (hprepare : ∀ calls p c, I calls c → p.block ∉ calls.map Prepared.block →
      BuffersFollow bs (calls ++ [p]) → I (calls ++ [p]) (prepareRequest bs p.block p.data c))
    (calls : List Prepared) :
    (calls.map Prepared.block).Nodup → BuffersFollow bs calls →
      I calls (prepareAll bs calls) := by
  induction calls using List.reverseRecOn with
  | nil => exact fun _ _ => hnil
  | append_singleton calls p ih =>
    intro hids horder
    rw [map_append, nodup_append] at hids
    have hcalls := ih hids.1 fun q hq q' hq' =>
      horder q (mem_append_left _ hq) q' (mem_append_left _ hq')
    have hfresh : p.block ∉ calls.map Prepared.block := fun hmem =>
      hids.2.2 _ hmem _ mem_cons_self rfl
    rw [prepareAll_append]
    exact hprepare calls p _ hcalls hfresh horder

theorem chained_prepareAll (hbs : 0 < bs) (calls : List Prepared) :
    (calls.map Prepared.block).Nodup → BuffersFollow bs calls →
      Chained bs calls (prepareAll bs calls) :=
  prepareAll_induction (I := Chained bs) ⟨nodup_nil, by simp, by simp⟩
    (fun _ _ _ hchain hfresh horder => hchain.prepare hbs hfresh horder) calls

/-! ## The bytes -/

def bufferOf (calls : List Prepared) (b : Nat) : Nat :=
  ((calls.find? fun p => p.block = b).map Prepared.data).getD 0

theorem bufferOf_mem (hids : (calls.map Prepared.block).Nodup) (hp : p ∈ calls) :
    bufferOf calls p.block = p.data := by
  unfold bufferOf
  cases hfind : calls.find? fun q => decide (q.block = p.block) with
  | none => exact absurd (find?_eq_none.mp hfind p hp) (by simp)
  | some q =>
    have hb : q.block = p.block := by simpa using find?_some hfind
    have hq := inj_on_of_nodup_map hids (mem_of_find?_eq_some hfind) hp hb
    rw [hq]
    rfl

def byteAt (bs : Nat) (memory : Bytes) (calls : List Prepared) : Bytes :=
  fun j => memory (bufferOf calls (j / bs) + j % bs)

theorem byteAt_mem (memory : Bytes) (hids : (calls.map Prepared.block).Nodup) (hp : p ∈ calls)
    {i : Nat} (hi : i < bs) :
    byteAt bs memory calls (p.block * bs + i) = memory (p.data + i) := by
  have hdiv : (p.block * bs + i) / bs = p.block := by
    rw [Nat.add_comm, Nat.add_mul_div_right _ _ (by omega), Nat.div_eq_of_lt hi, Nat.zero_add]
  have hmod : (p.block * bs + i) % bs = i := by
    rw [Nat.add_comm, Nat.add_mul_mod_self_right, Nat.mod_eq_of_lt hi]
  unfold byteAt
  rw [hdiv, hmod, bufferOf_mem hids hp]

theorem writtenBlocks_apply (memory store : Bytes) (hids : (calls.map Prepared.block).Nodup)
    (j : Nat) :
    writtenBlocks bs memory calls store j
      = if ∃ p ∈ calls, p.block * bs ≤ j ∧ j < p.block * bs + bs then byteAt bs memory calls j
        else store j := by
  have hblocks : ∀ p ∈ calls, ∀ i < bs,
      memory (p.data + i) = byteAt bs memory calls (p.block * bs + i) :=
    fun p hp i hi => (byteAt_mem memory hids hp hi).symm
  unfold writtenBlocks
  rw [foldl_memcpy_apply hblocks]

theorem IsRun.byte (h : IsRun bs calls x) {i : Nat} (hi : i < x.length) :
    ∃ p ∈ calls, ∃ r < bs, x.block * bs + i = p.block * bs + r ∧ x.data + i = p.data + r := by
  obtain ⟨n, -, hlen, hmem⟩ := h
  rw [hlen, Nat.mul_comm] at hi
  have hbs : 0 < bs := Nat.pos_of_ne_zero fun h => by simp [h] at hi
  have hdiv := Nat.div_add_mod i bs
  refine ⟨_, hmem (i / bs) (Nat.div_lt_of_lt_mul hi), i % bs, Nat.mod_lt i hbs, ?_, ?_⟩
  · dsimp only [nth]
    rw [Nat.add_mul, Nat.mul_comm (i / bs)]
    omega
  · dsimp only [nth]
    rw [Nat.mul_comm (i / bs)]
    omega

theorem IsRun.whole (h : IsRun bs calls x) {k : Nat} (hk : k * bs < x.length) :
    k * bs + bs ≤ x.length := by
  obtain ⟨n, -, hlen, -⟩ := h
  rw [hlen] at hk ⊢
  have hle : (k + 1) * bs ≤ n * bs := Nat.mul_le_mul_right bs (Nat.lt_of_mul_lt_mul_right hk)
  rwa [Nat.add_mul, Nat.one_mul] at hle

theorem submitted_eq_writtenBlocks (hbs : 0 < bs) (hids : (calls.map Prepared.block).Nodup)
    (horder : BuffersFollow bs calls) (replicas : Nat) (memory store : Bytes) :
    submitted bs memory (submitRequest replicas (prepareAll bs calls)) store
      = writtenBlocks bs memory calls store := by
  have hchain := chained_prepareAll hbs calls hids horder
  have hsegments : ∀ x ∈ prepareAll bs calls, ∀ i < x.length,
      memory (x.data + i) = byteAt bs memory calls (x.block * bs + i) := by
    intro x hx i hi
    obtain ⟨p, hp, r, hr, hdst, hsrc⟩ := (hchain.runs x hx).byte hi
    rw [hdst, hsrc, byteAt_mem memory hids hp hr]
  -- the same places are written
  have hplaces : ∀ j, (∃ x ∈ prepareAll bs calls, x.block * bs ≤ j ∧ j < x.block * bs + x.length)
      ↔ ∃ p ∈ calls, p.block * bs ≤ j ∧ j < p.block * bs + bs := by
    intro j
    constructor
    · intro ⟨x, hx, hle, hlt⟩
      obtain ⟨p, hp, r, hr, hdst, -⟩ :=
        (hchain.runs x hx).byte (i := j - x.block * bs) (by omega)
      exact ⟨p, hp, by omega, by omega⟩
    · intro ⟨p, hp, hle, hlt⟩
      obtain ⟨x, hx, k, hk, rfl⟩ := hchain.covers p hp
      have hwhole := (hchain.runs x hx).whole hk
      dsimp only [nth] at hle hlt
      rw [Nat.add_mul] at hle hlt
      exact ⟨x, hx, by omega, by omega⟩
  unfold submitted
  rw [segments_submitRequest]
  funext j
  rw [foldl_memcpy_apply hsegments, writtenBlocks_apply memory store hids]
  simp only [hplaces]

/-! ## Buffers that do not follow -/

structure Misled (bs : Nat) (calls : List Prepared) (b a n : Nat) (q : Prepared) : Prop where
  lead : ∀ k ≤ n, ⟨b + k, a + k * bs⟩ ∈ calls
  first : ∀ r ∈ calls, r.data + bs ≠ a
  last : q ∈ calls
  touch : q.data = a + (n + 1) * bs
  wrong : q.block ≠ b + (n + 1)

theorem exists_lead (hbs : 0 < bs) (bound : Nat) :
    ∀ p ∈ calls, p.data ≤ bound →
      (∀ r ∈ calls, ∀ s ∈ calls, r.data < p.data → r.data + bs = s.data → s.block = r.block + 1) →
      ∃ b a n, p = ⟨b + n, a + n * bs⟩ ∧ (∀ k ≤ n, ⟨b + k, a + k * bs⟩ ∈ calls)
        ∧ ∀ r ∈ calls, r.data + bs ≠ a := by
  induction bound using Nat.strongRecOn with
  | ind bound ih =>
    intro p hp hbound hfollow
    by_cases htouch : ∃ r ∈ calls, r.data + bs = p.data
    · obtain ⟨r, hr, htouch⟩ := htouch
      have hblock := hfollow r hr p hp (by omega) htouch
      obtain ⟨b, a, n, rfl, hlead, hfirst⟩ := ih r.data (by omega) r hr (Nat.le_refl _)
        fun r' hr' s hs hlt => hfollow r' hr' s hs (by omega)
      dsimp only at htouch hblock
      have hp' : p = ⟨b + (n + 1), a + (n + 1) * bs⟩ := by
        cases p with
        | mk block data =>
          dsimp only at htouch hblock
          rw [hblock, ← htouch, Nat.add_mul, Nat.one_mul, Nat.add_assoc, Nat.add_assoc]
      refine ⟨b, a, n + 1, hp', fun k hk => ?_, hfirst⟩
      rcases Nat.le_succ_iff.mp hk with hk | rfl
      · exact hlead k hk
      · exact hp' ▸ hp
    · refine ⟨p.block, p.data, 0, by simp, fun k hk => ?_, fun r hr h => htouch ⟨r, hr, h⟩⟩
      obtain rfl : k = 0 := Nat.le_zero.mp hk
      simpa using hp

theorem exists_misled (hbs : 0 < bs) (bound : Nat) :
    ∀ p ∈ calls, ∀ q ∈ calls, p.data ≤ bound → p.data + bs = q.data → q.block ≠ p.block + 1 →
      ∃ b a n q, Misled bs calls b a n q := by
  induction bound using Nat.strongRecOn with
  | ind bound ih =>
    intro p hp q hq hbound htouch hwrong
    by_cases hearlier : ∀ r ∈ calls, ∀ s ∈ calls, r.data < p.data → r.data + bs = s.data →
        s.block = r.block + 1
    · obtain ⟨b, a, n, rfl, hlead, hfirst⟩ := exists_lead hbs p.data p hp (Nat.le_refl _) hearlier
      refine ⟨b, a, n, q, hlead, hfirst, hq, ?_, hwrong⟩
      rw [← htouch, Nat.add_mul, Nat.one_mul, Nat.add_assoc]
    · push Not at hearlier
      obtain ⟨r, hr, s, hs, hlt, htouch', hwrong'⟩ := hearlier
      exact ih r.data (by omega) r hr s hs (Nat.le_refl _) htouch' hwrong'

theorem prepareRequest_behind (hbs : 0 < bs) (x : Segment) (block : Nat) :
    prepareRequest bs block (x.data + x.length) [x] = [⟨x.block, x.length + bs, x.data⟩] := by
  have hpos : bs ≠ 0 := Nat.ne_of_gt hbs
  simp [prepareRequest, Merge.loop, Merge.visit, Merge.before, Merge.after, SegmentChain.assign,
    SegmentChain.next, hpos]

theorem prepareAll_lead (hbs : 0 < bs) (b a n : Nat) :
    prepareAll bs ((List.range (n + 1)).map fun k => ⟨b + k, a + k * bs⟩)
      = [⟨b, (n + 1) * bs, a⟩] := by
  induction n with
  | zero => simp [prepareAll, prepareRequest, Merge.loop, SegmentChain.assign, SegmentChain.insert]
  | succ n ih =>
    unfold prepareAll at ih ⊢
    rw [range_succ, map_append, foldl_append, ih]
    have hbehind := prepareRequest_behind hbs ⟨b, (n + 1) * bs, a⟩ (b + (n + 1))
    rw [Nat.add_mul (n + 1), Nat.one_mul]
    exact hbehind

def Anchored (bs : Nat) (calls : List Prepared) (b a : Nat) (q : Prepared) (x : Segment) : Prop :=
  (x.data ≤ q.data → q.data < x.data + x.length → x.block = b ∧ x.data = a)
    ∧ ∃ r ∈ calls, r.data + bs = x.data + x.length

section Misplaced

variable {b a n : Nat} {q : Prepared}

theorem Anchored.join (hfirst : ∀ r ∈ calls, r.data + bs ≠ a) (hx : Anchored bs calls b a q x)
    (hy : Anchored bs calls b a q y) (htouch : x.data + x.length = y.data) :
    Anchored bs calls b a q ⟨x.block, x.length + y.length, x.data⟩ := by
  obtain ⟨r, hr, hend⟩ := hy.2
  refine ⟨fun hle hlt => ?_, r, hr, by rw [hend, ← htouch]; exact Nat.add_assoc _ _ _⟩
  dsimp only at hle hlt
  by_cases hin : q.data < x.data + x.length
  · exact hx.1 hle hin
  -- the second one has it, so it begins with the first of the buffers: nothing can touch it there
  · obtain ⟨-, hstart⟩ := hy.1 (by omega) (by omega)
    obtain ⟨s, hs, hsend⟩ := hx.2
    exact absurd (by omega) (hfirst s hs)

theorem anchored_prepare {c : SegmentChain} (hbs : 0 < bs)
    (hfirst : ∀ r ∈ calls, r.data + bs ≠ a) (hp : p ∈ calls)
    (hapart : p.data + bs ≤ q.data ∨ q.data + bs ≤ p.data)
    (h : ∀ x ∈ c, Anchored bs calls b a q x) :
    ∀ x ∈ prepareRequest bs p.block p.data c, Anchored bs calls b a q x := by
  have hloop := Merge.loop_invariant
    (I := fun m => 0 < m.size ∧ Anchored bs calls b a q m.entry
      ∧ ∀ x ∈ m.chain, Anchored bs calls b a q x)
    (fun m cur ⟨hpos, hentry, hchain⟩ hcur => by
      rcases Merge.visit_cases cur hpos with ⟨heq, -⟩ | ⟨htouch, heq⟩ | ⟨htouch, -, heq⟩
      · rw [heq]
        exact ⟨hpos, hentry, hchain⟩
      · have hjoin := (hchain cur hcur).join hfirst hentry htouch
        rw [heq]
        refine ⟨Nat.add_pos_right _ hpos, hjoin, fun x hx => ?_⟩
        rcases SegmentChain.mem_assign_iff.mp hx with rfl | ⟨hx, -⟩
        · exact hjoin
        · exact hchain x hx
      · have hjoin := hentry.join hfirst (hchain cur hcur) htouch
        rw [heq]
        refine ⟨Nat.add_pos_left hpos _, hjoin, fun x hx => ?_⟩
        rcases SegmentChain.mem_assign_iff.mp (SegmentChain.mem_erase.mp hx).1 with rfl | ⟨hx, -⟩
        · exact hjoin
        · exact hchain x hx)
    (c.length + 1) (c.head?.map Segment.block) ⟨c, p.block, bs, p.data, false⟩
    ⟨hbs, ⟨fun hle hlt => by simp only [Merge.entry] at hle hlt; omega, p, hp, rfl⟩, h⟩
  obtain ⟨-, hentry, hchain⟩ := hloop
  unfold prepareRequest
  dsimp only
  split
  · exact hchain
  · intro x hx
    rcases SegmentChain.mem_assign_iff.mp hx with rfl | ⟨hx, -⟩
    · exact hentry
    · exact hchain x hx

theorem Misled.anchored (h : Misled bs calls b a n q) (hbs : 0 < bs) {rest : List Prepared}
    (hrest : ∀ p ∈ rest, p ∈ calls ∧ (p.data + bs ≤ q.data ∨ q.data + bs ≤ p.data)) :
    ∀ x ∈ prepareAll bs (((List.range (n + 1)).map fun k => ⟨b + k, a + k * bs⟩) ++ q :: rest),
      Anchored bs calls b a q x := by
  have hlead : prepareAll bs (((List.range (n + 1)).map fun k => ⟨b + k, a + k * bs⟩) ++ q :: rest)
      = rest.foldl (fun c p => prepareRequest bs p.block p.data c)
        [⟨b, (n + 1) * bs + bs, a⟩] := by
    have hfirst := prepareAll_lead hbs b a n
    unfold prepareAll at hfirst ⊢
    rw [foldl_append, hfirst, foldl_cons, h.touch]
    exact congrArg (List.foldl _ · rest) (prepareRequest_behind hbs ⟨b, (n + 1) * bs, a⟩ q.block)
  rw [hlead]
  have hstart : ∀ x ∈ [(⟨b, (n + 1) * bs + bs, a⟩ : Segment)], Anchored bs calls b a q x := by
    intro x hx
    rw [mem_singleton.mp hx]
    refine ⟨fun _ _ => ⟨rfl, rfl⟩, q, h.last, ?_⟩
    rw [h.touch, Nat.add_assoc]
  clear hlead
  generalize [(⟨b, (n + 1) * bs + bs, a⟩ : Segment)] = c at hstart
  induction rest generalizing c with
  | nil => exact hstart
  | cons p rest ih =>
    obtain ⟨hp, hapart⟩ := hrest p mem_cons_self
    exact ih (fun p' hp' => hrest p' (mem_cons_of_mem _ hp')) _
      (anchored_prepare hbs h.first hp hapart hstart)

def onlyAt (data : Nat) : Bytes := fun i => if i = data then 1 else 0

theorem Misled.lost (h : Misled bs calls b a n q) (hbs : 0 < bs) {c : SegmentChain}
    (hc : ∀ x ∈ c, Anchored bs calls b a q x) :
    submitted bs (onlyAt q.data) (submitRequest 0 c) (fun _ => 0) (q.block * bs) = 0 := by
  unfold submitted
  rw [segments_submitRequest]
  refine List.foldlRecOn (motive := fun w : Bytes => w (q.block * bs) = 0) c _ rfl ?_
  intro w hw x hx
  by_cases hin : x.block * bs ≤ q.block * bs ∧ q.block * bs < x.block * bs + x.length
  · rw [memcpy_of_mem hin.1 hin.2]
    refine if_neg fun hbyte => ?_
    obtain ⟨hblock, hdata⟩ := (hc x hx).1 (by omega) (by omega)
    have htouch := h.touch
    have heq : q.block * bs = (b + (n + 1)) * bs := by
      rw [Nat.add_mul]
      rw [hblock] at hbyte hin
      omega
    exact h.wrong (Nat.eq_of_mul_eq_mul_right hbs heq)
  · rw [memcpy_of_not_mem hin]
    exact hw

theorem Misled.exists_order (h : Misled bs calls b a n q) (hbs : 0 < bs)
    (hapart : calls.Pairwise fun p q => p.data + bs ≤ q.data ∨ q.data + bs ≤ p.data) :
    ∃ order : List Prepared, order.Perm calls
      ∧ ∀ x ∈ prepareAll bs order, Anchored bs calls b a q x := by
  have hnodup : ((((List.range (n + 1)).map fun k => (⟨b + k, a + k * bs⟩ : Prepared))
      ++ [q]).map Prepared.data).Nodup := by
    rw [map_append, map_map, map_singleton, nodup_append]
    refine ⟨nodup_range.map fun k k' hk => ?_, nodup_singleton _, ?_⟩
    · exact Nat.eq_of_mul_eq_mul_right hbs (Nat.add_left_cancel hk)
    · intro i hi j hj
      obtain ⟨k, hk, rfl⟩ := mem_map.mp hi
      have hlt := Nat.mul_lt_mul_of_pos_right (mem_range.mp hk) hbs
      rw [mem_singleton.mp hj, h.touch]
      exact Nat.ne_of_lt (Nat.add_lt_add_left hlt a)
  have hsub : (((List.range (n + 1)).map fun k => (⟨b + k, a + k * bs⟩ : Prepared)) ++ [q])
      ⊆ calls := by
    intro p hp
    rcases mem_append.mp hp with hp | hp
    · obtain ⟨k, hk, rfl⟩ := mem_map.mp hp
      exact h.lead k (Nat.lt_succ_iff.mp (mem_range.mp hk))
    · rw [mem_singleton.mp hp]
      exact h.last
  obtain ⟨lead, hlead, hcalls⟩ := subperm_of_subset (List.Nodup.of_map _ hnodup) hsub
  obtain ⟨rest, hperm⟩ := hcalls.exists_perm_append
  replace hperm := hperm.trans (hlead.append_right rest)
  rw [append_assoc, singleton_append] at hperm
  refine ⟨_, hperm.symm, h.anchored hbs fun p hp => ?_⟩
  have hall := hperm.pairwise_iff (fun hpq => Or.symm hpq) |>.mp hapart
  have hmid := (pairwise_append.mp hall).2.1
  exact ⟨hperm.mem_iff.mpr (by simp [hp]), (rel_of_pairwise_cons hmid hp).symm⟩

end Misplaced

/--
**A batch is written as its blocks would be**, in whatever order they are handed in, if and only if
buffers that touch belong to blocks that do.
-/
theorem submitted_prepareAll (bs : Nat) (hbs : 0 < bs) (calls : List Prepared)
    (hids : (calls.map Prepared.block).Nodup)
    (hapart : calls.Pairwise fun p q => p.data + bs ≤ q.data ∨ q.data + bs ≤ p.data) :
    (∀ order : List Prepared, order.Perm calls → ∀ (replicas : Nat) (memory store : Bytes),
      submitted bs memory (submitRequest replicas (prepareAll bs order)) store
        = writtenBlocks bs memory order store)
      ↔ BuffersFollow bs calls := by
  constructor
  · intro hright
    by_contra hnot
    unfold BuffersFollow at hnot
    push Not at hnot
    obtain ⟨p, hp, q, hq, htouch, hwrong⟩ := hnot
    obtain ⟨b, a, n, q, hmisled⟩ := exists_misled hbs p.data p hp q hq (Nat.le_refl _) htouch hwrong
    obtain ⟨order, hperm, hanchored⟩ := hmisled.exists_order hbs hapart
    have hbytes := congrFun (hright order hperm 0 (onlyAt q.data) fun _ => 0) (q.block * bs)
    have hids' := (hperm.map Prepared.block).nodup_iff.mpr hids
    have hlast := hperm.mem_iff.mpr hmisled.last
    have hbyte := byteAt_mem (onlyAt q.data) hids' hlast hbs
    rw [hmisled.lost hbs hanchored, writtenBlocks_apply _ _ hids',
      if_pos ⟨q, hlast, Nat.le_refl _, by omega⟩] at hbytes
    exact absurd (hbytes.trans hbyte) (by simp [onlyAt])
  · intro hfollow order hperm replicas memory store
    exact submitted_eq_writtenBlocks hbs ((hperm.map Prepared.block).nodup_iff.mpr hids)
      (fun p hp q hq => hfollow p (hperm.mem_iff.mp hp) q (hperm.mem_iff.mp hq)) replicas memory
      store

/-- Three blocks of two bytes, in the order 1, 4, 0; the buffers of 0 and 1 touch. -/
theorem submitted_joined :
    prepareAll 2 [⟨1, 12⟩, ⟨4, 30⟩, ⟨0, 10⟩] = [⟨0, 4, 10⟩, ⟨4, 2, 30⟩]
    ∧ submitted 2 (fun i => i.toUInt8)
        (submitRequest 1 (prepareAll 2 [⟨1, 12⟩, ⟨4, 30⟩, ⟨0, 10⟩])) (fun _ => 0)
      = writtenBlocks 2 (fun i => i.toUInt8) [⟨1, 12⟩, ⟨4, 30⟩, ⟨0, 10⟩] fun _ => 0 :=
  ⟨by decide, (submitted_prepareAll 2 (by decide) _ (by decide) (by decide)).mpr
    (by unfold BuffersFollow; decide) _ (List.Perm.refl _) 1 _ _⟩

/--
Blocks 0 and 5 with buffers that touch. They become one segment, which is written to blocks 0 and
1: block 5 keeps what it had.
-/
theorem submitted_misplaced :
    prepareAll 2 [⟨0, 10⟩, ⟨5, 12⟩] = [⟨0, 4, 10⟩]
    ∧ submitted 2 (fun _ => 7) (submitRequest 0 (prepareAll 2 [⟨0, 10⟩, ⟨5, 12⟩])) (fun _ => 0)
      ≠ writtenBlocks 2 (fun _ => 7) [⟨0, 10⟩, ⟨5, 12⟩] (fun _ => 0) := by
  refine ⟨by decide, fun h => ?_⟩
  have hbyte := congrFun h 2
  cases hbyte

end HDCS.Proof
