import HDCS.Proof.SegmentWrites

/-!
# The segments of a request, in whatever order its blocks come

`prepare_request` is called by the workers of a request in any order. Where buffers that touch
belong to blocks that do, a block has at most one neighbour on either side in the map, and the one
before it has the smaller block id, so the loop meets it first. The block is joined with both
(`mem_prepareRequest`), and the segments are maximal runs of the blocks that were handed in
(`MaximalRuns`). There is only one such map (`MaximalRuns.unique`): the order of the calls does not
matter.

The full blocks of a request are one run, whose buffers are in the client's buffer, and the
partial ones at its ends are in buffers of their own.
-/

namespace HDCS

/-! ## The map in its order -/

namespace SegmentChain

variable {x cur : Segment} {c : SegmentChain} {b it : Nat}

def Sorted (c : SegmentChain) : Prop := c.Pairwise fun x y => x.block < y.block

theorem Sorted.nodup_keys (h : c.Sorted) : c.keys.Nodup :=
  List.pairwise_map.mpr (h.imp Nat.ne_of_lt)

theorem Sorted.nodup (h : c.Sorted) : c.Nodup := List.Nodup.of_map _ h.nodup_keys

theorem Sorted.insert (h : c.Sorted) (hx : x.block ∉ c.keys) : (c.insert x).Sorted := by
  induction c with
  | nil => exact List.pairwise_singleton _ _
  | cons y c ih =>
    obtain ⟨hy, hc⟩ := List.pairwise_cons.mp h
    have hne : x.block ≠ y.block := fun heq => hx (heq ▸ List.mem_cons_self)
    rw [SegmentChain.insert]
    split
    · rename_i hlt
      refine List.pairwise_cons.mpr ⟨fun z hz => ?_, h⟩
      rcases List.mem_cons.mp hz with rfl | hz
      · exact hlt
      · exact Nat.lt_trans hlt (hy z hz)
    · rename_i hle
      have hnot : x.block ∉ keys c := fun hm => hx (List.mem_cons_of_mem _ hm)
      refine List.pairwise_cons.mpr ⟨fun z hz => ?_, ih hc hnot⟩
      rcases List.mem_cons.mp ((perm_insert x c).mem_iff.mp hz) with rfl | hz
      · omega
      · exact hy z hz

theorem Sorted.assign (h : c.Sorted) (x : Segment) : (c.assign x).Sorted := by
  by_cases hx : x.block ∈ c.keys
  · -- the keys stay where they are
    have hkeys := keys_assign_of_mem hx
    refine List.pairwise_map.mp (?_ : (c.assign x).keys.Pairwise (· < ·))
    rw [hkeys]
    exact List.pairwise_map.mpr h
  · unfold SegmentChain.assign
    rw [if_neg (mt any_iff.mp hx)]
    exact h.insert hx

theorem Sorted.erase (h : c.Sorted) (b : Nat) : (c.erase b).Sorted := h.filter _

theorem Sorted.le_of_find? (h : c.Sorted) {q : Nat → Bool}
    (hfind : c.find? (fun y => q y.block) = some cur) (hx : x ∈ c) (hq : q x.block = true) :
    cur.block ≤ x.block := by
  induction c with
  | nil => cases hx
  | cons y c ih =>
    obtain ⟨hy, hc⟩ := List.pairwise_cons.mp h
    rw [List.find?_cons] at hfind
    cases hqy : q y.block with
    | true =>
      rw [hqy] at hfind
      cases hfind
      rcases List.mem_cons.mp hx with rfl | hx
      · exact Nat.le_refl _
      · exact Nat.le_of_lt (hy x hx)
    | false =>
      rw [hqy] at hfind
      rcases List.mem_cons.mp hx with rfl | hx
      · rw [hqy] at hq
        cases hq
      · exact ih hc hfind hx

theorem Sorted.next_le (h : c.Sorted) (hx : x ∈ c) (hlt : b < x.block) :
    ∃ it, c.next b = some it ∧ it ≤ x.block := by
  unfold next
  cases hfind : c.find? fun y => decide (b < y.block) with
  | none => exact absurd (List.find?_eq_none.mp hfind x hx) (by simpa using hlt)
  | some y =>
    exact ⟨_, rfl, h.le_of_find? (q := fun k => decide (b < k)) hfind hx (by simpa using hlt)⟩

end SegmentChain

theorem Merge.loop_scan {I : Option Nat → Merge → Prop}
    (hcarried : ∀ {it m}, I it m → m.Carried)
    (hvisit : ∀ {it m cur}, I (some it) m →
      m.chain.find? (fun y => decide (it ≤ y.block)) = some cur →
      I (m.chain.next cur.block) (m.visit cur))
    (hdone : ∀ {it m}, I (some it) m →
      m.chain.find? (fun y => decide (it ≤ y.block)) = none → I none m) :
    ∀ (rounds : Nat) (it : Option Nat) (m : Merge), I it m → m.left it ≤ rounds →
      I none (m.loop rounds it)
  | 0, none, _, h, _ => h
  | _ + 1, none, _, h, _ => h
  | 0, some it, m, h, hleft => by
    refine hdone h (List.find?_eq_none.mpr fun y hy hle => ?_)
    have hpos : 0 < m.chain.keys.countP fun b => decide (it ≤ b) :=
      List.countP_pos_iff.mpr ⟨y.block, List.mem_map_of_mem hy, hle⟩
    simp only [Merge.left] at hleft
    omega
  | rounds + 1, some it, m, h, hleft => by
    rw [Merge.loop]
    split
    · rename_i cur hcur
      have hmem := List.mem_of_find?_eq_some hcur
      have hlt := Merge.left_next hmem (by simpa using List.find?_some hcur)
      refine loop_scan (I := I) hcarried hvisit hdone rounds _ _ (hvisit h hcur) ?_
      cases hnext : m.chain.next cur.block with
      | none => exact Nat.zero_le _
      | some it' =>
        have hle := (hcarried h).left_visit hmem it'
        rw [hnext] at hlt
        omega
    · rename_i hnone
      exact hdone h hnone

end HDCS

namespace HDCS.Proof

open Lib List

variable {bs : Nat} {calls : List Prepared} {c : SegmentChain} {x y : Segment} {p : Prepared}

/-! ## Maximal runs -/

structure IsMaximal (bs : Nat) (calls : List Prepared) (x : Segment) : Prop where
  run : IsRun bs calls x
  start : ∀ q ∈ calls, q.data + bs ≠ x.data
  stop : ∀ q ∈ calls, x.data + x.length ≠ q.data

theorem IsRun.last (hbs : 0 < bs) (h : IsRun bs calls x) :
    ∃ q ∈ calls, Brings bs x q ∧ q.data + bs = x.data + x.length ∧ x.block ≤ q.block := by
  obtain ⟨n, hn, hlen, hmem⟩ := h
  obtain ⟨n, rfl⟩ : ∃ k, n = k + 1 := ⟨n - 1, by omega⟩
  rw [Nat.add_mul, Nat.one_mul] at hlen
  refine ⟨_, hmem n (Nat.lt_succ_self n), ⟨n, by omega, rfl⟩, ?_, Nat.le_add_right _ _⟩
  dsimp only [nth]
  rw [hlen, Nat.add_assoc]

theorem IsMaximal.start_le (hx : IsMaximal bs calls x) (hy : IsRun bs calls y) {j k : Nat}
    (hk : k * bs < y.length) (heq : nth bs x j = nth bs y k) : k ≤ j := by
  refine Nat.le_of_not_lt fun hlt => ?_
  obtain ⟨n, -, hlen, hmem⟩ := hy
  have hkn : k < n := Nat.lt_of_mul_lt_mul_right (hlen ▸ hk)
  -- the block of `y` that leads up to `x`
  refine hx.start _ (hmem (k - j - 1) (by omega)) ?_
  have hdata := congrArg Prepared.data heq
  obtain ⟨d, rfl⟩ : ∃ d, k = j + d + 1 := ⟨k - j - 1, by omega⟩
  dsimp only [nth] at hdata ⊢
  have hd : j + d + 1 - j - 1 = d := by omega
  rw [hd]
  rw [Nat.add_mul, Nat.add_mul, Nat.one_mul] at hdata
  omega

theorem IsMaximal.length_le (hx : IsMaximal bs calls x) (hy : IsRun bs calls y)
    (hdata : y.data = x.data) : y.length ≤ x.length := by
  refine Nat.le_of_not_lt fun hlt => ?_
  obtain ⟨n, -, hlen, -⟩ := hx.run
  obtain ⟨n', -, hlen', hmem'⟩ := hy
  rw [hlen, hlen'] at hlt
  refine hx.stop _ (hmem' n (Nat.lt_of_mul_lt_mul_right hlt)) ?_
  dsimp only [nth]
  rw [hlen, hdata]

/-- **Maximal runs that have a block in common are the same.** -/
theorem IsMaximal.eq (hx : IsMaximal bs calls x) (hy : IsMaximal bs calls y)
    (hxp : Brings bs x p) (hyp : Brings bs y p) : x = y := by
  obtain ⟨j, hj, rfl⟩ := hxp
  obtain ⟨k, hk, heq⟩ := hyp
  obtain rfl : j = k :=
    Nat.le_antisymm (hy.start_le hx.run hj heq.symm) (hx.start_le hy.run hk heq)
  have hblock := congrArg Prepared.block heq
  have hdata := congrArg Prepared.data heq
  dsimp only [nth] at hblock hdata
  have hdata : x.data = y.data := Nat.add_right_cancel hdata
  have hlength : x.length = y.length :=
    Nat.le_antisymm (hy.length_le hx.run hdata) (hx.length_le hy.run hdata.symm)
  cases x
  cases y
  dsimp only at hblock hdata hlength
  rw [Nat.add_right_cancel hblock, hdata, hlength]

theorem IsRun.brings_first (hbs : 0 < bs) (h : IsRun bs calls x) :
    Brings bs x ⟨x.block, x.data⟩ := by
  obtain ⟨n, hn, hlen, -⟩ := h
  refine ⟨0, ?_, ?_⟩
  · rw [hlen, Nat.zero_mul]
    exact Nat.mul_pos hn hbs
  · unfold nth
    rw [Nat.zero_mul, Nat.add_zero, Nat.add_zero]

structure MaximalRuns (bs : Nat) (calls : List Prepared) (c : SegmentChain) : Prop where
  sorted : c.Sorted
  maximal : ∀ x ∈ c, IsMaximal bs calls x
  covers : ∀ p ∈ calls, ∃ x ∈ c, Brings bs x p

theorem MaximalRuns.chained (h : MaximalRuns bs calls c) : Chained bs calls c :=
  ⟨h.sorted.nodup_keys, fun x hx => (h.maximal x hx).run, h.covers⟩

theorem MaximalRuns.mem (hbs : 0 < bs) (h : MaximalRuns bs calls c) (hx : IsMaximal bs calls x) :
    x ∈ c := by
  obtain ⟨y, hy, hbrings⟩ := h.covers _ hx.run.first
  rwa [hx.eq (h.maximal y hy) (hx.run.brings_first hbs) hbrings]

/-- **There is one such map.** -/
theorem MaximalRuns.unique (hbs : 0 < bs) {c' : SegmentChain} (h : MaximalRuns bs calls c)
    (h' : MaximalRuns bs calls c') : c = c' := by
  have hmem : ∀ x, x ∈ c ↔ x ∈ c' := fun x =>
    ⟨fun hx => h'.mem hbs (h.maximal x hx), fun hx => h.mem hbs (h'.maximal x hx)⟩
  exact List.Perm.eq_of_pairwise (fun _ _ _ _ hab hba => absurd hba (Nat.lt_asymm hab)) h.sorted
    h'.sorted ((perm_ext_iff_of_nodup h.sorted.nodup h'.sorted.nodup).mpr hmem)

theorem MaximalRuns.perm {calls' : List Prepared} (hperm : calls.Perm calls')
    (h : MaximalRuns bs calls c) : MaximalRuns bs calls' c where
  sorted := h.sorted
  maximal := fun x hx =>
    { run := (h.maximal x hx).run.mono hperm.subset
      start := fun q hq => (h.maximal x hx).start q (hperm.mem_iff.mpr hq)
      stop := fun q hq => (h.maximal x hx).stop q (hperm.mem_iff.mpr hq) }
  covers := fun p hp => h.covers p (hperm.mem_iff.mpr hp)

/-! ## A block and its neighbours -/

structure Neighbours (bs : Nat) (c : SegmentChain) (p : Prepared) (before after : Option Segment) :
    Prop where
  before : ∀ x, before = some x ↔ x ∈ c ∧ x.data + x.length = p.data
  after : ∀ x, after = some x ↔ x ∈ c ∧ p.data + bs = x.data

def joined (bs : Nat) (p : Prepared) (before after : Option Segment) : Segment where
  block := (before.map Segment.block).getD p.block
  length := (before.map Segment.length).getD 0 + bs + (after.map Segment.length).getD 0
  data := (before.map Segment.data).getD p.data

theorem joined_stop {before : Option Segment}
    (hbefore : ∀ x, before = some x → x.data + x.length = p.data) (after : Option Segment) :
    (joined bs p before after).data + (joined bs p before after).length
      = p.data + bs + (after.map Segment.length).getD 0 := by
  cases before with
  | none =>
    simp only [joined, Option.map_none, Option.getD_none, Nat.zero_add]
    omega
  | some x =>
    have htouch := hbefore x rfl
    simp only [joined, Option.map_some, Option.getD_some]
    omega

theorem find?_eq_some_iff_of_unique {α : Type} {l : List α} {P : α → Prop} [DecidablePred P]
    (hunique : ∀ a ∈ l, ∀ b ∈ l, P a → P b → a = b) (a : α) :
    l.find? (fun b => decide (P b)) = some a ↔ a ∈ l ∧ P a := by
  constructor
  · intro hfind
    exact ⟨mem_of_find?_eq_some hfind, by simpa using find?_some hfind⟩
  · intro ⟨ha, hP⟩
    cases hfind : l.find? fun b => decide (P b) with
    | none => exact absurd (find?_eq_none.mp hfind a ha) (by simpa using hP)
    | some b =>
      rw [hunique b (mem_of_find?_eq_some hfind) a ha (by simpa using find?_some hfind) hP]

section Neighbours

variable (hbs : 0 < bs) (h : MaximalRuns bs calls c) (horder : BuffersFollow bs (calls ++ [p]))

include hbs h horder in
theorem block_lt_of_before (hx : x ∈ c) (htouch : x.data + x.length = p.data) :
    x.block < p.block := by
  obtain ⟨q, hq, -, hend, hle⟩ := (h.maximal x hx).run.last hbs
  have := horder q (mem_append_left _ hq) p (mem_append_right _ mem_cons_self) (hend.trans htouch)
  omega

include h horder in
theorem block_of_after (hx : x ∈ c) (htouch : p.data + bs = x.data) : x.block = p.block + 1 :=
  horder p (mem_append_right _ mem_cons_self) ⟨x.block, x.data⟩
    (mem_append_left _ (h.maximal x hx).run.first) htouch

include hbs h horder in
theorem exists_neighbours : ∃ before after, Neighbours bs c p before after := by
  refine ⟨_, _, find?_eq_some_iff_of_unique fun x hx y hy hxp hyp => ?_,
    find?_eq_some_iff_of_unique fun x hx y hy hxp hyp => ?_⟩
  · obtain ⟨q, hq, hxq, hend, -⟩ := (h.maximal x hx).run.last hbs
    obtain ⟨q', hq', hyq, hend', -⟩ := (h.maximal y hy).run.last hbs
    have hp : p ∈ calls ++ [p] := mem_append_right _ mem_cons_self
    have hblock := horder q (mem_append_left _ hq) p hp (hend.trans hxp)
    have hblock' := horder q' (mem_append_left _ hq') p hp (hend'.trans hyp)
    obtain rfl : q = q' := by
      cases q
      cases q'
      dsimp only at hend hend' hblock hblock'
      rw [Prepared.mk.injEq]
      omega
    exact (h.maximal x hx).eq (h.maximal y hy) hxq hyq
  · have hblock := block_of_after h horder hx hxp
    have hblock' := block_of_after h horder hy hyp
    have hfirst := (h.maximal y hy).run.brings_first hbs
    rw [hblock', ← hblock, ← hyp, hxp] at hfirst
    exact (h.maximal x hx).eq (h.maximal y hy) ((h.maximal x hx).run.brings_first hbs) hfirst

end Neighbours

/-! ## The loop meets both -/

structure Scan (bs : Nat) (c : SegmentChain) (p : Prepared) (before after b a : Option Segment)
    (it : Option Nat) (m : Merge) : Prop where
  carried : m.Carried
  sorted : m.chain.Sorted
  entry : m.entry = joined bs p b a
  inserted : m.inserted = (b.isSome || a.isSome)
  chain : ∀ y, y ∈ m.chain ↔ (m.inserted = true ∧ y = m.entry) ∨ (y ∈ c ∧ b ≠ some y ∧ a ≠ some y)
  metBefore : b = before ∨ b = none ∧ ∃ x i, before = some x ∧ it = some i ∧ i ≤ x.block
  metAfter : a = after ∨ a = none ∧ ∃ x i, after = some x ∧ it = some i ∧ i ≤ x.block
  order : a.isSome = true → b = before

section Scan

variable {before after b a : Option Segment} {it : Nat} {m : Merge} {cur : Segment}

theorem Scan.mem_of_ne (h : Scan bs c p before after b a (some it) m) (hy : y ∈ m.chain)
    (hne : y ≠ m.entry) : y ∈ c :=
  (((h.chain y).mp hy).resolve_left fun hentry => hne hentry.2).1

theorem Scan.mem_of_touch (h : Scan bs c p before after b a (some it) m) (hy : y ∈ m.chain)
    (htouch : y.data + y.length = m.data ∨ m.data + m.size = y.data) : y ∈ c := by
  have hpos := h.carried.pos
  refine h.mem_of_ne hy ?_
  rintro rfl
  dsimp only [Merge.entry] at htouch
  omega

theorem Scan.ahead (h : Scan bs c p before after b a (some it) m)
    (hcur : m.chain.find? (fun y => decide (it ≤ y.block)) = some cur) (hx : x ∈ m.chain)
    (hle : it ≤ x.block) (hne : x ≠ cur) :
    ∃ i, m.chain.next cur.block = some i ∧ i ≤ x.block := by
  have hmem := mem_of_find?_eq_some hcur
  have hlt := h.sorted.le_of_find? (q := fun k => decide (it ≤ k)) hcur hx (by simpa using hle)
  refine h.sorted.next_le hx (Nat.lt_of_le_of_ne hlt fun heq => hne ?_)
  exact (Merge.eq_of_block_eq h.sorted.nodup_keys hmem hx heq).symm

variable (hn : Neighbours bs c p before after)

include hn in
theorem Scan.neighbours {it : Option Nat} (h : Scan bs c p before after b a it m) :
    (∀ x, b = some x → x ∈ c ∧ x.data + x.length = p.data)
      ∧ ∀ x, a = some x → x ∈ c ∧ p.data + bs = x.data := by
  refine ⟨fun x hx => (hn.before x).mp ?_, fun x hx => (hn.after x).mp ?_⟩
  · rcases h.metBefore with heq | ⟨heq, -⟩
    · exact heq ▸ hx
    · cases heq ▸ hx
  · rcases h.metAfter with heq | ⟨heq, -⟩
    · exact heq ▸ hx
    · cases heq ▸ hx

include hn in
theorem Scan.stop {it : Option Nat} (h : Scan bs c p before after b a it m) :
    m.data + m.size = p.data + bs + (a.map Segment.length).getD 0 := by
  have hdata : m.data = (joined bs p b a).data := congrArg Segment.data h.entry
  have hsize : m.size = (joined bs p b a).length := congrArg Segment.length h.entry
  rw [hdata, hsize]
  exact joined_stop (fun x hx => ((h.neighbours hn).1 x hx).2) a

include hn in
theorem Scan.mem_before {it : Option Nat} (h : Scan bs c p before after none a it m)
    (hx : before = some x) : x ∈ m.chain := by
  refine (h.chain x).mpr (.inr ⟨((hn.before x).mp hx).1, by simp, ?_⟩)
  rintro rfl
  cases (h.order rfl).trans hx

include hn in
theorem Scan.mem_after {it : Option Nat} (h : Scan bs c p before after b none it m)
    (hx : after = some x) : x ∈ m.chain := by
  obtain ⟨hxc, hxp⟩ := (hn.after x).mp hx
  refine (h.chain x).mpr (.inr ⟨hxc, ?_, by simp⟩)
  rintro rfl
  -- it would begin behind its own end
  have htouch := ((h.neighbours hn).1 x rfl).2
  have hpos := h.carried.pos
  have hsize : m.size = (joined bs p (some x) none).length := congrArg Segment.length h.entry
  simp only [joined, Option.map_some, Option.getD_some, Option.map_none, Option.getD_none] at hsize
  omega

variable (hbs : 0 < bs) (hmax : MaximalRuns bs calls c) (horder : BuffersFollow bs (calls ++ [p]))
  (hfresh : p.block ∉ c.keys)

include hn hbs hmax in
theorem Scan.visit_before (h : Scan bs c p before after b a (some it) m)
    (hcur : m.chain.find? (fun y => decide (it ≤ y.block)) = some cur)
    (htouch : cur.data + cur.length = m.data)
    (heq : m.visit cur = ⟨m.chain.assign ⟨cur.block, cur.length + m.size, cur.data⟩, cur.block,
      cur.length + m.size, cur.data, true⟩) :
    Scan bs c p before after (some cur) none (m.chain.next cur.block) (m.visit cur) := by
  have hmem := mem_of_find?_eq_some hcur
  have hcarried := h.carried.visit hmem
  have hold := h.mem_of_touch hmem (.inl htouch)
  have hdata : m.data = (joined bs p b a).data := congrArg Segment.data h.entry
  -- nothing leads up to the neighbour before the block
  obtain rfl : b = none := by
    cases b with
    | none => rfl
    | some x =>
      obtain ⟨q, hq, -, hend, -⟩ := (hmax.maximal cur hold).run.last hbs
      exact absurd (hend.trans (htouch.trans hdata))
        ((hmax.maximal x ((h.neighbours hn).1 x rfl).1).start q hq)
  have hfound : before = some cur := (hn.before cur).mpr ⟨hold, htouch.trans hdata⟩
  obtain rfl : a = none := by
    cases a with
    | none => rfl
    | some x => cases (h.order rfl).trans hfound
  have hins : m.inserted = false := h.inserted
  have hsize : m.size = bs := by
    have : m.size = (joined bs p none none).length := congrArg Segment.length h.entry
    rw [this]
    simp [joined]
  rw [heq] at hcarried ⊢
  refine ⟨hcarried, h.sorted.assign _, ?_, rfl, fun y => ?_, .inl hfound.symm, ?_, nofun⟩
  · simp [Merge.entry, joined, hsize]
  · rw [SegmentChain.mem_assign_iff, h.chain, hins]
    refine or_congr (by simp [Merge.entry]) ?_
    constructor
    · rintro ⟨hc | ⟨hy, -⟩, hb⟩
      · exact absurd hc.1 (by simp)
      · exact ⟨hy, fun hc => hb (by rw [Option.some.inj hc]), by simp⟩
    · rintro ⟨hy, hc, -⟩
      refine ⟨.inr ⟨hy, by simp, by simp⟩, fun hb => hc ?_⟩
      rw [Merge.eq_of_block_eq hmax.sorted.nodup_keys hy hold hb]
  · rcases h.metAfter with hnone | ⟨-, x, i, hx, hi, hle⟩
    · exact .inl hnone
    · obtain ⟨hxc, hxp⟩ := (hn.after x).mp hx
      cases hi
      obtain ⟨i, hi, hle⟩ := h.ahead hcur (h.mem_after hn hx) hle (by
        rintro rfl
        have hp := htouch.trans hdata
        simp only [joined, Option.map_none, Option.getD_none] at hp
        omega)
      exact .inr ⟨rfl, x, i, hx, hi, hle⟩

include hn hbs hmax horder hfresh in
theorem Scan.visit_after (h : Scan bs c p before after b a (some it) m)
    (hcur : m.chain.find? (fun y => decide (it ≤ y.block)) = some cur)
    (htouch : m.data + m.size = cur.data)
    (heq : m.visit cur = ⟨(m.chain.assign ⟨m.blockId, m.size + cur.length, m.data⟩).erase cur.block,
      m.blockId, m.size + cur.length, m.data, true⟩) :
    Scan bs c p before after b (some cur) (m.chain.next cur.block) (m.visit cur) := by
  have hmem := mem_of_find?_eq_some hcur
  have hcarried := h.carried.visit hmem
  have hold := h.mem_of_touch hmem (.inr htouch)
  have hstop := h.stop hn
  -- nothing goes on from the neighbour after the block
  obtain rfl : a = none := by
    cases a with
    | none => rfl
    | some x =>
      obtain ⟨hx, hxp⟩ := (h.neighbours hn).2 x rfl
      simp only [Option.map_some, Option.getD_some] at hstop
      exact absurd (by omega : x.data + x.length = cur.data)
        ((hmax.maximal x hx).stop _ (hmax.maximal cur hold).run.first)
  have hnext : p.data + bs = cur.data := by
    simp only [Option.map_none, Option.getD_none] at hstop
    omega
  have hfound : after = some cur := (hn.after cur).mpr ⟨hold, hnext⟩
  -- the other neighbour would have come first
  have hfirst : b = before := by
    rcases h.metBefore with hb | ⟨rfl, x, i, hx, hi, hle⟩
    · exact hb
    · obtain ⟨hxc, hxp⟩ := (hn.before x).mp hx
      cases hi
      have hlt := block_lt_of_before hbs hmax horder hxc hxp
      have hcurb := block_of_after hmax horder hold hnext
      have := h.sorted.le_of_find? (q := fun k => decide (it ≤ k)) hcur (h.mem_before hn hx)
        (by simpa using hle)
      omega
  have hblock : m.blockId = (joined bs p b none).block := congrArg Segment.block h.entry
  -- no other old entry has the key of the carried one
  have hkey : ∀ y ∈ c, b ≠ some y → y.block ≠ m.blockId := by
    intro y hy hby hb
    rw [hblock] at hb
    cases b with
    | none =>
      have hb : y.block = p.block := hb
      exact hfresh (hb ▸ mem_map_of_mem hy)
    | some x =>
      have hx := ((h.neighbours hn).1 x rfl).1
      exact hby (by rw [Merge.eq_of_block_eq hmax.sorted.nodup_keys hy hx hb])
  have hcurne := h.carried.block_ne hmem htouch
  rw [heq] at hcarried ⊢
  refine ⟨hcarried, (h.sorted.assign _).erase _, ?_, by simp, fun y => ?_, .inl hfirst,
    .inl hfound.symm, fun _ => hfirst⟩
  · have hsize : m.size = (joined bs p b none).length := congrArg Segment.length h.entry
    have hdata : m.data = (joined bs p b none).data := congrArg Segment.data h.entry
    simp only [Merge.entry, hblock, hsize, hdata]
    simp [joined]
  · rw [SegmentChain.mem_erase, SegmentChain.mem_assign_iff, h.chain]
    constructor
    · rintro ⟨rfl | ⟨hc | ⟨hy, hb, -⟩, hid⟩, hyb⟩
      · exact .inl ⟨rfl, rfl⟩
      · exact absurd (congrArg Segment.block hc.2) hid
      · exact .inr ⟨hy, hb, fun hc => hyb (by rw [Option.some.inj hc])⟩
    · rintro (⟨-, rfl⟩ | ⟨hy, hb, hc⟩)
      · exact ⟨.inl rfl, hcurne⟩
      · refine ⟨.inr ⟨.inr ⟨hy, hb, by simp⟩, hkey y hy hb⟩, fun hyb => hc ?_⟩
        rw [Merge.eq_of_block_eq hmax.sorted.nodup_keys hy hold hyb]

include hn in
theorem Scan.pass (h : Scan bs c p before after b a (some it) m)
    (hcur : m.chain.find? (fun y => decide (it ≤ y.block)) = some cur)
    (hbefore : cur.data + cur.length ≠ m.data) (hafter : m.data + m.size ≠ cur.data) :
    Scan bs c p before after b a (m.chain.next cur.block) m := by
  have hdata : m.data = (joined bs p b a).data := congrArg Segment.data h.entry
  have hstop := h.stop hn
  refine { h with metBefore := ?_, metAfter := ?_ }
  · rcases h.metBefore with hb | ⟨rfl, x, i, hx, hi, hle⟩
    · exact .inl hb
    · obtain ⟨hxc, hxp⟩ := (hn.before x).mp hx
      cases hi
      obtain ⟨i, hi, hle⟩ := h.ahead hcur (h.mem_before hn hx) hle (by
        rintro rfl
        exact hbefore (hxp.trans hdata.symm))
      exact .inr ⟨rfl, x, i, hx, hi, hle⟩
  · rcases h.metAfter with ha | ⟨rfl, x, i, hx, hi, hle⟩
    · exact .inl ha
    · obtain ⟨hxc, hxp⟩ := (hn.after x).mp hx
      cases hi
      obtain ⟨i, hi, hle⟩ := h.ahead hcur (h.mem_after hn hx) hle (by
        rintro rfl
        simp only [Option.map_none, Option.getD_none] at hstop
        omega)
      exact .inr ⟨rfl, x, i, hx, hi, hle⟩

include hn hbs hmax hfresh in
theorem scan_start : Scan bs c p before after none none (c.head?.map Segment.block)
    ⟨c, p.block, bs, p.data, false⟩ := by
  -- the iterator begins at the first entry, and both neighbours are ahead
  have hahead : ∀ z : Option Segment, (∀ x, z = some x → x ∈ c) → none = z ∨ (none : Option Segment)
      = none ∧ ∃ x i, z = some x ∧ c.head?.map Segment.block = some i ∧ i ≤ x.block := by
    intro z hz
    cases z with
    | none => exact .inl rfl
    | some x =>
      have hx := hz x rfl
      have hsorted := hmax.sorted
      cases c with
      | nil => cases hx
      | cons y c =>
        refine .inr ⟨rfl, x, y.block, rfl, rfl, ?_⟩
        rcases mem_cons.mp hx with rfl | hx
        · exact Nat.le_refl _
        · exact Nat.le_of_lt ((pairwise_cons.mp hsorted).1 x hx)
  refine ⟨Merge.carried_start p.data hbs hmax.sorted.nodup_keys hfresh, hmax.sorted, ?_, rfl,
    by simp, hahead before fun x hx => ((hn.before x).mp hx).1,
    hahead after fun x hx => ((hn.after x).mp hx).1, by simp⟩
  simp [Merge.entry, joined]

include hn hbs hmax horder hfresh in
/-- **The block is joined with both of its neighbours**, and nothing else changes. -/
theorem mem_prepareRequest :
    (prepareRequest bs p.block p.data c).Sorted ∧ ∀ y, y ∈ prepareRequest bs p.block p.data c
      ↔ y = joined bs p before after ∨ y ∈ c ∧ before ≠ some y ∧ after ≠ some y := by
  have hleft : (Merge.mk c p.block bs p.data false).left (c.head?.map Segment.block)
      ≤ c.length + 1 := Merge.left_start_le bs p.data hfresh
  obtain ⟨b, a, h⟩ := Merge.loop_scan (I := fun it m => ∃ b a, Scan bs c p before after b a it m)
    (fun ⟨_, _, h⟩ => h.carried)
    (fun {it m cur} ⟨b, a, h⟩ hcur => by
      rcases Merge.visit_cases cur h.carried.pos with
        ⟨heq, hbefore, hafter⟩ | ⟨htouch, heq⟩ | ⟨htouch, -, heq⟩
      · rw [heq]
        exact ⟨b, a, h.pass hn hcur hbefore hafter⟩
      · exact ⟨_, _, h.visit_before hn hbs hmax hcur htouch heq⟩
      · exact ⟨_, _, h.visit_after hn hbs hmax horder hfresh hcur htouch heq⟩)
    (fun {it m} ⟨b, a, h⟩ hnone => by
      have hseen : ∀ x ∈ m.chain, ¬ it ≤ x.block := fun x hx => by
        simpa using find?_eq_none.mp hnone x hx
      refine ⟨b, a, { h with metBefore := ?_, metAfter := ?_ }⟩
      · rcases h.metBefore with hb | ⟨rfl, x, i, hx, hi, hle⟩
        · exact .inl hb
        · cases hi
          exact absurd hle (hseen x (h.mem_before hn hx))
      · rcases h.metAfter with ha | ⟨rfl, x, i, hx, hi, hle⟩
        · exact .inl ha
        · cases hi
          exact absurd hle (hseen x (h.mem_after hn hx)))
    (c.length + 1) _ _ ⟨none, none, scan_start hn hbs hmax hfresh⟩ hleft
  obtain rfl : b = before := h.metBefore.resolve_right (by simp)
  obtain rfl : a = after := h.metAfter.resolve_right (by simp)
  unfold prepareRequest
  dsimp only
  split
  · rename_i hins
    refine ⟨h.sorted, fun y => ?_⟩
    rw [h.chain, h.entry]
    exact or_congr_left (and_iff_right hins)
  · rename_i hins
    have hout := h.carried.fresh (Bool.eq_false_iff.mpr hins)
    refine ⟨h.sorted.assign _, fun y => ?_⟩
    rw [SegmentChain.mem_assign_iff, ← h.entry]
    refine or_congr_right ?_
    constructor
    · intro ⟨hy, _⟩
      exact ((h.chain y).mp hy).resolve_left fun hc => hins hc.1
    · intro hy
      have hmem := (h.chain y).mpr (.inr hy)
      exact ⟨hmem, fun hb => hout (mem_map.mpr ⟨y, hmem, hb⟩)⟩

end Scan

/-! ## What `prepare_request` keeps -/

section Prepare

variable {before after : Option Segment} (hbs : 0 < bs) (h : MaximalRuns bs calls c)
  (horder : BuffersFollow bs (calls ++ [p])) (hfresh : p.block ∉ calls.map Prepared.block)
  (hn : Neighbours bs c p before after)

include hbs h horder hfresh hn in
theorem joined_start : ∀ q ∈ calls ++ [p], q.data + bs ≠ (joined bs p before after).data := by
  intro q hq htouch
  have hp : p ∈ calls ++ [p] := mem_append_right _ mem_cons_self
  cases before with
  | some x =>
    obtain ⟨hx, hxp⟩ := (hn.before x).mp rfl
    rcases mem_append.mp hq with hq | hq
    · exact (h.maximal x hx).start q hq htouch
    · rw [mem_singleton.mp hq] at htouch
      dsimp only [joined, Option.map_some, Option.getD_some] at htouch
      omega
  | none =>
    have htouch : q.data + bs = p.data := htouch
    rcases mem_append.mp hq with hmem | hmem
    · -- the segment of that block ends with it, or goes on with the very block that is new
      obtain ⟨x, hx, k, hk, rfl⟩ := h.covers q hmem
      obtain ⟨n, -, hlen, hrun⟩ := (h.maximal x hx).run
      have hkn : k < n := Nat.lt_of_mul_lt_mul_right (hlen ▸ hk)
      have hblock := horder _ hq p hp htouch
      rcases Nat.lt_or_ge (k + 1) n with hlt | hge
      · exact hfresh (mem_map.mpr ⟨_, hrun (k + 1) hlt, hblock.symm⟩)
      · obtain rfl : n = k + 1 := by omega
        refine absurd ((hn.before x).mpr ⟨hx, ?_⟩) (by simp)
        rw [← htouch, hlen, Nat.add_mul, Nat.one_mul]
        exact (Nat.add_assoc ..).symm
    · rw [mem_singleton.mp hmem] at htouch
      omega

include hbs h horder hfresh hn in
theorem joined_ends : ∀ q ∈ calls ++ [p],
    (joined bs p before after).data + (joined bs p before after).length ≠ q.data := by
  intro q hq htouch
  have hp : p ∈ calls ++ [p] := mem_append_right _ mem_cons_self
  rw [joined_stop (fun x hx => ((hn.before x).mp hx).2)] at htouch
  cases after with
  | some x =>
    obtain ⟨hx, hxp⟩ := (hn.after x).mp rfl
    simp only [Option.map_some, Option.getD_some] at htouch
    rcases mem_append.mp hq with hq | hq
    · exact (h.maximal x hx).stop q hq (by omega)
    · rw [mem_singleton.mp hq] at htouch
      omega
  | none =>
    simp only [Option.map_none, Option.getD_none, Nat.add_zero] at htouch
    rcases mem_append.mp hq with hmem | hmem
    · obtain ⟨x, hx, k, hk, rfl⟩ := h.covers q hmem
      obtain ⟨n, -, hlen, hrun⟩ := (h.maximal x hx).run
      have hkn : k < n := Nat.lt_of_mul_lt_mul_right (hlen ▸ hk)
      have hblock := horder p hp _ hq htouch
      cases k with
      | zero =>
        refine absurd ((hn.after x).mpr ⟨hx, ?_⟩) (by simp)
        rw [htouch]
        dsimp only [nth]
        rw [Nat.zero_mul, Nat.add_zero]
      | succ k =>
        -- the block before that one has the id of the new one
        refine hfresh (mem_map.mpr ⟨_, hrun k (by omega), ?_⟩)
        dsimp only [nth] at hblock ⊢
        omega
    · rw [mem_singleton.mp hmem] at htouch
      omega

include hbs h horder hfresh in
/-- **What `prepare_request` keeps.** -/
theorem MaximalRuns.prepare :
    MaximalRuns bs (calls ++ [p]) (prepareRequest bs p.block p.data c) := by
  obtain ⟨before, after, hn⟩ := exists_neighbours hbs h horder
  have hkeys : p.block ∉ c.keys := by
    intro hmem
    obtain ⟨x, hx, hb⟩ := mem_map.mp hmem
    exact hfresh (mem_map.mpr ⟨_, (h.maximal x hx).run.first, hb⟩)
  obtain ⟨hsorted, hmem⟩ := mem_prepareRequest hn hbs h horder hkeys
  have hchained := h.chained.prepare hbs hfresh horder
  refine ⟨hsorted, fun x hx => ⟨hchained.runs x hx, fun q hq htouch => ?_, fun q hq htouch => ?_⟩,
    hchained.covers⟩
  · rcases (hmem x).mp hx with rfl | ⟨hx, -, hafter⟩
    · exact joined_start hbs h horder hfresh hn q hq htouch
    · rcases mem_append.mp hq with hq | hq
      · exact (h.maximal x hx).start q hq htouch
      · rw [mem_singleton.mp hq] at htouch
        exact hafter ((hn.after x).mpr ⟨hx, htouch⟩)
  · rcases (hmem x).mp hx with rfl | ⟨hx, hbefore, -⟩
    · exact joined_ends hbs h horder hfresh hn q hq htouch
    · rcases mem_append.mp hq with hq | hq
      · exact (h.maximal x hx).stop q hq htouch
      · rw [mem_singleton.mp hq] at htouch
        exact hbefore ((hn.before x).mpr ⟨hx, htouch⟩)

end Prepare

/-- **The map holds the maximal runs**, wherever buffers that touch belong to blocks that do. -/
theorem maximal_prepareAll (hbs : 0 < bs) (calls : List Prepared) :
    (calls.map Prepared.block).Nodup → BuffersFollow bs calls →
      MaximalRuns bs calls (prepareAll bs calls) :=
  prepareAll_induction (I := MaximalRuns bs) ⟨List.Pairwise.nil, by simp, by simp⟩
    (fun _ _ _ hmax hfresh horder => hmax.prepare hbs horder hfresh) calls

/-! ## The blocks of a request -/

def withPointers (data : Nat) : List (BlockRequest bs) → List (Nat × BlockRequest bs)
  | [] => []
  | q :: qs => (data, q) :: withPointers (data + q.size) qs

/--
What is handed in for a block request: the client's buffer for a full block, a buffer of its own for
a partial one.
-/
def prepared (scratch : Nat → Nat) (x : Nat × BlockRequest bs) : Prepared :=
  ⟨x.2.block, if x.2.Whole then x.1 else scratch x.2.block⟩

def fullBlocks (xs : List (Nat × BlockRequest bs)) : List (Nat × BlockRequest bs) :=
  xs.filter fun x => x.2.Whole

def endBlocks (xs : List (Nat × BlockRequest bs)) : List (Nat × BlockRequest bs) :=
  xs.filter fun x => ¬ x.2.Whole

def rowSegment : List (Nat × BlockRequest bs) → List Segment
  | [] => []
  | x :: xs => [⟨x.2.block, (xs.length + 1) * bs, x.1⟩]

/-- One segment for the full blocks, and one for every partial one. -/
def requestSegments (scratch : Nat → Nat) (xs : List (Nat × BlockRequest bs)) : List Segment :=
  rowSegment (fullBlocks xs) ++ (endBlocks xs).map fun x => ⟨x.2.block, bs, scratch x.2.block⟩

/-- The buffer of a partial block touches no other buffer. -/
def ScratchApart (scratch : Nat → Nat) (xs : List (Nat × BlockRequest bs)) : Prop :=
  ∀ x ∈ xs, ¬ x.2.Whole → ∀ y ∈ xs, (prepared scratch y).data + bs ≠ scratch x.2.block
    ∧ scratch x.2.block + bs ≠ (prepared scratch y).data

section Request

variable {r : Request} {id dataPtr offset left : Nat} {qs : List (BlockRequest bs)}

theorem Cut.fullBlocks_aligned (hbs : 0 < bs) (h : Cut r id dataPtr offset left qs)
    (haligned : offset % bs = 0) (data : Nat) :
    (fullBlocks (withPointers data qs)).map (fun x => (x.1, x.2.block))
        = (List.range (left / bs)).map (fun i => (data + i * bs, offset / bs + i))
      ∧ (endBlocks (withPointers data qs)).length ≤ 1 := by
  induction h generalizing data with
  | @last dataPtr offset left q hpos hle hq =>
    rw [haligned, Nat.sub_zero] at hle
    by_cases hwhole : q.Whole
    · have hleft : left = bs := hq.size.symm.trans hwhole
      simp [fullBlocks, endBlocks, withPointers, hwhole, hleft, Nat.div_self hbs, hq.block]
    · have hlt : left < bs := Nat.lt_of_le_of_ne hle fun heq => hwhole (hq.size.trans heq)
      simp [fullBlocks, endBlocks, withPointers, hwhole, Nat.div_eq_of_lt hlt]
  | @more dataPtr offset left q qs hlt hq _ ih =>
    rw [haligned, Nat.sub_zero] at hlt ih
    have hsize : q.size = bs := by rw [hq.size, haligned, Nat.sub_zero]
    have hwhole : q.Whole := hsize
    obtain ⟨hfull, hends⟩ := ih (Nat.mul_mod_left _ _) (data + bs)
    have hdiv : left / bs = (left - bs) / bs + 1 := by
      rw [← Nat.add_div_right _ hbs, Nat.sub_add_cancel (Nat.le_of_lt hlt)]
    have hfulls : fullBlocks (withPointers data (q :: qs))
        = (data, q) :: fullBlocks (withPointers (data + bs) qs) := by
      simp [fullBlocks, withPointers, hwhole, hsize]
    have hrest : endBlocks (withPointers data (q :: qs))
        = endBlocks (withPointers (data + bs) qs) := by
      simp [endBlocks, withPointers, hwhole, hsize]
    rw [hfulls, hrest, map_cons, hfull, hdiv, range_succ_eq_map, map_cons,
      map_map, Nat.mul_div_cancel _ hbs]
    refine ⟨?_, hends⟩
    congr 1
    · rw [hq.block, Nat.zero_mul, Nat.add_zero, Nat.add_zero]
    · refine map_congr_left fun i _ => ?_
      simp only [Function.comp, Nat.succ_eq_add_one, Nat.add_mul, Nat.one_mul]
      congr 1 <;> omega

theorem Cut.fullBlocks (hbs : 0 < bs) (h : Cut r id dataPtr offset left qs) (data : Nat) :
    (∃ d b n, (fullBlocks (withPointers data qs)).map (fun x => (x.1, x.2.block))
        = (List.range n).map fun i => (d + i * bs, b + i))
      ∧ (endBlocks (withPointers data qs)).length ≤ 2 := by
  by_cases haligned : offset % bs = 0
  · obtain ⟨hfull, hends⟩ := h.fullBlocks_aligned hbs haligned data
    exact ⟨⟨_, _, _, hfull⟩, by omega⟩
  · have hmod := Nat.mod_lt offset hbs
    cases h with
    | @last _ _ _ q hpos hle hq =>
      have hwhole : ¬ q.Whole := fun hw => by
        have : left = bs := hq.size.symm.trans hw
        omega
      refine ⟨⟨0, 0, 0, ?_⟩, ?_⟩
      · simp [Proof.fullBlocks, withPointers, hwhole]
      · simp [endBlocks, withPointers, hwhole]
    | @more _ _ _ q qs hlt hq hrest =>
      have hwhole : ¬ q.Whole := fun hw => by
        have : bs - offset % bs = bs := hq.size.symm.trans hw
        omega
      obtain ⟨hfull, hends⟩ := hrest.fullBlocks_aligned hbs (Nat.mul_mod_left _ _) (data + q.size)
      refine ⟨⟨_, _, _, (?_ : _ = _).trans hfull⟩, ?_⟩
      · simp [Proof.fullBlocks, withPointers, hwhole]
      · have : endBlocks (withPointers data (q :: qs))
            = (data, q) :: endBlocks (withPointers (data + q.size) qs) := by
          simp [endBlocks, withPointers, hwhole]
        rw [this, length_cons]
        omega

theorem map_withPointers (data : Nat) (qs : List (BlockRequest bs)) :
    (withPointers data qs).map Prod.snd = qs := by
  induction qs generalizing data with
  | nil => rfl
  | cons q qs ih => rw [withPointers, map_cons, ih]

end Request

section Row

variable {scratch : Nat → Nat} {xs : List (Nat × BlockRequest bs)} {z : Nat × BlockRequest bs}
  {d b n : Nat}

def InARow (bs d b n : Nat) (xs : List (Nat × BlockRequest bs)) : Prop :=
  (fullBlocks xs).map (fun x => (x.1, x.2.block)) = (List.range n).map fun i => (d + i * bs, b + i)

theorem InARow.whole (h : InARow bs d b n xs) (scratch : Nat → Nat) (hz : z ∈ xs)
    (hwhole : z.2.Whole) : ∃ i < n, prepared scratch z = ⟨b + i, d + i * bs⟩ := by
  have hmem : (z.1, z.2.block) ∈ (fullBlocks xs).map fun x => (x.1, x.2.block) :=
    mem_map_of_mem (mem_filter.mpr ⟨hz, decide_eq_true hwhole⟩)
  rw [h] at hmem
  obtain ⟨i, hi, heq⟩ := mem_map.mp hmem
  refine ⟨i, mem_range.mp hi, ?_⟩
  unfold prepared
  rw [if_pos hwhole, ← (Prod.mk.inj heq).1, ← (Prod.mk.inj heq).2]

theorem InARow.mem (h : InARow bs d b n xs) (scratch : Nat → Nat) {i : Nat} (hi : i < n) :
    ∃ z ∈ xs, prepared scratch z = ⟨b + i, d + i * bs⟩ := by
  have hmem : (d + i * bs, b + i) ∈ (List.range n).map fun i => (d + i * bs, b + i) :=
    mem_map_of_mem (mem_range.mpr hi)
  rw [← h] at hmem
  obtain ⟨z, hz, heq⟩ := mem_map.mp hmem
  obtain ⟨hz, hwhole⟩ := mem_filter.mp hz
  refine ⟨z, hz, ?_⟩
  unfold prepared
  rw [if_pos (of_decide_eq_true hwhole), (Prod.mk.inj heq).1, (Prod.mk.inj heq).2]

theorem InARow.rowSegment (h : InARow bs d b n xs) :
    rowSegment (fullBlocks xs) = if n = 0 then [] else [⟨b, n * bs, d⟩] := by
  have hlen := congrArg List.length h
  rw [length_map, length_map, length_range] at hlen
  unfold InARow at h
  cases hfull : fullBlocks xs with
  | nil =>
    rw [hfull] at hlen
    rw [if_pos (show n = 0 from hlen.symm)]
    rfl
  | cons z zs =>
    rw [hfull] at h hlen
    obtain ⟨n, rfl⟩ : ∃ k, n = k + 1 := ⟨zs.length, hlen.symm⟩
    rw [range_succ_eq_map, map_cons, map_cons] at h
    obtain ⟨hfst, hsnd⟩ := Prod.mk.inj (List.cons.inj h).1
    rw [Nat.zero_mul] at hfst
    rw [if_neg (Nat.succ_ne_zero n), Proof.rowSegment, hfst, hsnd, Nat.succ.inj hlen]
    rfl

theorem prepared_of_not_whole (hwhole : ¬ z.2.Whole) :
    prepared scratch z = ⟨z.2.block, scratch z.2.block⟩ := by
  unfold prepared
  rw [if_neg hwhole]

variable (hrow : InARow bs d b n xs) (hapart : ScratchApart scratch xs)

include hrow hapart in
theorem buffersFollow_request (hbs : 0 < bs) : BuffersFollow bs (xs.map (prepared scratch)) := by
  intro p hp q hq htouch
  obtain ⟨x, hx, rfl⟩ := mem_map.mp hp
  obtain ⟨y, hy, rfl⟩ := mem_map.mp hq
  by_cases hwx : x.2.Whole
  · by_cases hwy : y.2.Whole
    · obtain ⟨i, -, hi⟩ := hrow.whole scratch hx hwx
      obtain ⟨j, -, hj⟩ := hrow.whole scratch hy hwy
      rw [hi, hj] at htouch ⊢
      dsimp only at htouch ⊢
      have hmul : (i + 1) * bs = j * bs := by
        rw [Nat.add_mul, Nat.one_mul]
        omega
      have := Nat.eq_of_mul_eq_mul_right hbs hmul
      omega
    · rw [prepared_of_not_whole hwy] at htouch
      exact absurd htouch (hapart y hy hwy x hx).1
  · rw [prepared_of_not_whole hwx] at htouch
    exact absurd htouch (hapart x hx hwx y hy).2

include hrow hapart in
theorem isMaximal_row (hbs : 0 < bs) (hn : n ≠ 0) :
    IsMaximal bs (xs.map (prepared scratch)) ⟨b, n * bs, d⟩ := by
  obtain ⟨m, rfl⟩ : ∃ m, n = m + 1 := ⟨n - 1, by omega⟩
  refine ⟨⟨m + 1, Nat.succ_pos m, rfl, fun k hk => ?_⟩, fun q hq htouch => ?_,
    fun q hq htouch => ?_⟩
  · obtain ⟨z, hz, heq⟩ := hrow.mem scratch hk
    exact mem_map.mpr ⟨z, hz, heq⟩
  · obtain ⟨y, hy, rfl⟩ := mem_map.mp hq
    by_cases hwhole : y.2.Whole
    · obtain ⟨i, -, hi⟩ := hrow.whole scratch hy hwhole
      rw [hi] at htouch
      dsimp only at htouch
      omega
    · obtain ⟨z, hz, heq⟩ := hrow.mem scratch (Nat.succ_pos m)
      refine (hapart y hy hwhole z hz).2 ?_
      rw [prepared_of_not_whole hwhole] at htouch
      rw [heq, htouch, Nat.zero_mul]
      rfl
  · obtain ⟨y, hy, rfl⟩ := mem_map.mp hq
    dsimp only at htouch
    by_cases hwhole : y.2.Whole
    · obtain ⟨i, hlt, hi⟩ := hrow.whole scratch hy hwhole
      rw [hi] at htouch
      have := Nat.eq_of_mul_eq_mul_right hbs (Nat.add_left_cancel htouch)
      omega
    · obtain ⟨z, hz, heq⟩ := hrow.mem scratch (Nat.lt_succ_self m)
      refine (hapart y hy hwhole z hz).1 ?_
      rw [prepared_of_not_whole hwhole, Nat.add_mul, Nat.one_mul] at htouch
      rw [heq]
      exact (Nat.add_assoc ..).trans htouch

include hapart in
theorem isMaximal_end (hz : z ∈ xs) (hwhole : ¬ z.2.Whole) :
    IsMaximal bs (xs.map (prepared scratch)) ⟨z.2.block, bs, scratch z.2.block⟩ := by
  refine ⟨⟨1, Nat.one_pos, (Nat.one_mul bs).symm, fun k hk => ?_⟩, fun q hq => ?_, fun q hq => ?_⟩
  · obtain rfl : k = 0 := Nat.lt_one_iff.mp hk
    unfold nth
    rw [Nat.zero_mul]
    exact mem_map.mpr ⟨z, hz, prepared_of_not_whole hwhole⟩
  · obtain ⟨y, hy, rfl⟩ := mem_map.mp hq
    exact (hapart z hz hwhole y hy).1
  · obtain ⟨y, hy, rfl⟩ := mem_map.mp hq
    exact (hapart z hz hwhole y hy).2

include hrow hapart in
theorem isMaximal_request (hbs : 0 < bs) :
    ∀ x ∈ requestSegments scratch xs, IsMaximal bs (xs.map (prepared scratch)) x := by
  intro x hx
  unfold requestSegments at hx
  rw [hrow.rowSegment] at hx
  rcases mem_append.mp hx with hx | hx
  · split at hx
    · cases hx
    · rename_i hn
      rw [mem_singleton.mp hx]
      exact isMaximal_row hrow hapart hbs hn
  · obtain ⟨z, hz, rfl⟩ := mem_map.mp hx
    obtain ⟨hz, hwhole⟩ := mem_filter.mp hz
    exact isMaximal_end hapart hz (of_decide_eq_true hwhole)

include hrow in
theorem requestSegments_cover (hbs : 0 < bs) (scratch : Nat → Nat) :
    ∀ p ∈ xs.map (prepared scratch), ∃ x ∈ requestSegments scratch xs, Brings bs x p := by
  intro p hp
  obtain ⟨z, hz, rfl⟩ := mem_map.mp hp
  unfold requestSegments
  rw [hrow.rowSegment]
  by_cases hwhole : z.2.Whole
  · obtain ⟨i, hi, heq⟩ := hrow.whole scratch hz hwhole
    refine ⟨⟨b, n * bs, d⟩, mem_append_left _ ?_, i, Nat.mul_lt_mul_of_pos_right hi hbs, heq⟩
    rw [if_neg (by omega)]
    exact mem_cons_self
  · refine ⟨⟨z.2.block, bs, scratch z.2.block⟩, mem_append_right _ (mem_map.mpr
      ⟨z, mem_filter.mpr ⟨hz, decide_eq_true hwhole⟩, rfl⟩), 0, ?_, ?_⟩
    · rw [Nat.zero_mul]
      exact hbs
    · rw [prepared_of_not_whole hwhole]
      unfold nth
      rw [Nat.zero_mul]
      rfl

theorem nodup_requestSegments (h : (xs.map fun x => x.2.block).Nodup) :
    (requestSegments scratch xs).Nodup := by
  refine List.Nodup.of_map Segment.block ?_
  have hperm : (fullBlocks xs ++ endBlocks xs).Perm xs := by
    unfold fullBlocks endBlocks
    simpa using filter_append_perm (fun x : Nat × BlockRequest bs => decide x.2.Whole) xs
  have hsub : ((requestSegments scratch xs).map Segment.block).Sublist
      ((fullBlocks xs ++ endBlocks xs).map fun x => x.2.block) := by
    unfold requestSegments
    rw [map_append, map_append, map_map]
    refine List.Sublist.append ?_ (List.Sublist.refl _)
    cases fullBlocks xs with
    | nil => exact List.Sublist.refl _
    | cons x xs => exact List.Sublist.cons_cons _ (nil_sublist _)
  exact ((hperm.map _).nodup_iff.mpr h).sublist hsub

end Row

/-- The block requests of a request, each with its `data_ptr`. -/
def requestBlocks (bs : Nat) (hbs : 0 < bs) (id : Nat) (r : Request) (data : Nat) :
    List (Nat × BlockRequest bs) :=
  withPointers data (createBlockRequests bs hbs id r)

section RequestBlocks

variable {hbs : 0 < bs} {id data : Nat} {r : Request}

theorem requestBlocks_row (hbs : 0 < bs) (id data : Nat) (r : Request) :
    (∃ d b n, InARow bs d b n (requestBlocks bs hbs id r data))
      ∧ (endBlocks (requestBlocks bs hbs id r data)).length ≤ 2
      ∧ ((requestBlocks bs hbs id r data).map fun x => x.2.block).Nodup := by
  have hblocks : (requestBlocks bs hbs id r data).map (fun x => x.2.block)
      = (createBlockRequests bs hbs id r).map BlockRequest.block := by
    have hmap := congrArg (List.map BlockRequest.block)
      (map_withPointers data (createBlockRequests bs hbs id r))
    rw [map_map] at hmap
    exact hmap
  rcases Nat.eq_zero_or_pos r.length with hlen | hlen
  · have hnil : createBlockRequests bs hbs id r = [] := by
      unfold createBlockRequests
      rw [hlen]
      rfl
    rw [hblocks]
    unfold requestBlocks
    rw [hnil]
    exact ⟨⟨0, 0, 0, rfl⟩, Nat.zero_le _, nodup_nil⟩
  · have hcut := cut_createBlockRequests hbs id hlen
    obtain ⟨hrow, hends⟩ := hcut.fullBlocks hbs data
    exact ⟨hrow, hends, hblocks ▸ hcut.nodup hbs⟩

theorem MaximalRuns.existsUnique {calls : List Prepared} (hbs : 0 < bs) (h : MaximalRuns bs calls c)
    (hids : (calls.map Prepared.block).Nodup) (hp : p ∈ calls) :
    ∃! x, x ∈ c ∧ x.block ≤ p.block ∧ p.block < x.block + x.length / bs := by
  obtain ⟨x, hx, k, hk, hpk⟩ := h.covers p hp
  have hbrings : Brings bs x p := ⟨k, hk, hpk⟩
  obtain ⟨n, -, hlen, -⟩ := (h.maximal x hx).run
  refine ⟨x, ⟨hx, ?_, ?_⟩, fun y ⟨hy, hle, hlt⟩ => ?_⟩
  · rw [hpk]
    exact Nat.le_add_right _ _
  · rw [hpk, hlen, Nat.mul_div_cancel _ hbs]
    exact Nat.add_lt_add_left (Nat.lt_of_mul_lt_mul_right (hlen ▸ hk)) _
  · obtain ⟨n', -, hlen', hmem'⟩ := (h.maximal y hy).run
    rw [hlen', Nat.mul_div_cancel _ hbs] at hlt
    have hlt : p.block - y.block < n' := by omega
    have hsame : p = nth bs y (p.block - y.block) := by
      refine inj_on_of_nodup_map hids hp (hmem' _ hlt) ?_
      exact (Nat.add_sub_of_le hle).symm
    refine (h.maximal y hy).eq (h.maximal x hx) ⟨_, ?_, hsame⟩ hbrings
    rw [hlen']
    exact Nat.mul_lt_mul_of_pos_right hlt hbs

/--
**The blocks of a request become the same segments in every order**: one for the full blocks, and
one for each of the at most two partial ones. Every block is in one of them.
-/
theorem requestChain (bs : Nat) (hbs : 0 < bs) (id : Nat) (r : Request) (data : Nat)
    (scratch : Nat → Nat) (hapart : ScratchApart scratch (requestBlocks bs hbs id r data)) :
    ∃ chain : SegmentChain,
      (∀ calls, calls.Perm ((requestBlocks bs hbs id r data).map (prepared scratch)) →
        prepareAll bs calls = chain)
      ∧ chain.Perm (requestSegments scratch (requestBlocks bs hbs id r data))
      ∧ chain.length ≤ 3
      ∧ ∀ q ∈ createBlockRequests bs hbs id r,
          ∃! x, x ∈ chain ∧ x.block ≤ q.block ∧ q.block < x.block + x.length / bs := by
  obtain ⟨⟨d, b, n, hrow⟩, hends, hnodup⟩ := requestBlocks_row hbs id data r
  have hids : (((requestBlocks bs hbs id r data).map (prepared scratch)).map
      Prepared.block).Nodup := by rwa [map_map]
  have horder := buffersFollow_request hrow hapart hbs
  have hmax := maximal_prepareAll hbs _ hids horder
  have hperm : (prepareAll bs ((requestBlocks bs hbs id r data).map (prepared scratch))).Perm
      (requestSegments scratch (requestBlocks bs hbs id r data)) := by
    refine (perm_ext_iff_of_nodup hmax.sorted.nodup (nodup_requestSegments hnodup)).mpr
      fun x => ⟨fun hx => ?_, fun hx => hmax.mem hbs (isMaximal_request hrow hapart hbs x hx)⟩
    -- its first block is in one of the segments, and that is maximal too
    have hrun := (hmax.maximal x hx).run
    obtain ⟨y, hy, hbrings⟩ := requestSegments_cover hrow hbs scratch _ hrun.first
    rwa [(hmax.maximal x hx).eq (isMaximal_request hrow hapart hbs y hy) (hrun.brings_first hbs)
      hbrings]
  refine ⟨_, fun calls hcalls => ?_, hperm, ?_, fun q hq => ?_⟩
  · refine MaximalRuns.unique hbs ?_ hmax
    refine (maximal_prepareAll hbs calls ((hcalls.map _).nodup_iff.mpr hids) ?_).perm hcalls
    exact fun p hp q hq => horder p (hcalls.mem_iff.mp hp) q (hcalls.mem_iff.mp hq)
  · rw [hperm.length_eq, requestSegments, hrow.rowSegment, length_append, length_map]
    split
    · rw [length_nil]
      omega
    · rw [length_singleton]
      omega
  · rw [← map_withPointers data (createBlockRequests bs hbs id r)] at hq
    obtain ⟨z, hz, rfl⟩ := mem_map.mp hq
    exact hmax.existsUnique hbs hids (mem_map_of_mem hz)

def acrossFour : Request := ⟨.write, fun _ => 0, 2, 13⟩

/-- The client's buffer is at 100, and a buffer of a partial block at a multiple of 1000. -/
theorem requestChain_acrossFour : ∃ chain : SegmentChain,
    (∀ calls, calls.Perm [⟨0, 1000⟩, ⟨1, 102⟩, ⟨2, 106⟩, ⟨3, 4000⟩] → prepareAll 4 calls = chain)
      ∧ chain.Perm [⟨1, 8, 102⟩, ⟨0, 4, 1000⟩, ⟨3, 4, 4000⟩] := by
  obtain ⟨chain, hsame, hperm, -⟩ := requestChain 4 (by decide) 0 acrossFour 100
    (fun b => 1000 * (b + 1)) (by unfold ScratchApart; decide)
  exact ⟨chain, hsame, hperm⟩

end RequestBlocks

end HDCS.Proof
