import HDCS.Core.BlockGuard
import HDCS.Proof.Splitting

/-!
# Cutting with words

The loop of `create_block_requests` on words of 64 bits does what the one on numbers
does (`loop_eq`): within the volume nothing overflows, every look at `block_map` finds
a block, and there is a round for every byte. What is appended is the `Cut` of the
request, so it tiles the range (`Tiles`).

The two counts that go with it are narrower. `pending_requests` is one of 32 bits; the
count that the `DataStoreRequest` is armed with passes through 8, and comes from a
formula that sees a block in an empty range which does not begin at one.
-/

namespace HDCS.Proof

open BlockGuard List

/-! ## What is appended, from the numbers -/

section Cut

variable {bs : Nat} {r : Request} {id dataPtr offset left : Nat} {qs : List (BlockRequest bs)}

def sizes (qs : List (BlockRequest bs)) : Nat := (qs.map BlockRequest.size).sum

@[simp] theorem sizes_nil : sizes ([] : List (BlockRequest bs)) = 0 := rfl

@[simp] theorem sizes_cons (q : BlockRequest bs) (qs : List (BlockRequest bs)) :
    sizes (q :: qs) = q.size + sizes qs := sum_cons

theorem Cut.sizes (h : Cut r id dataPtr offset left qs) : sizes qs = left := by
  induction h with
  | last _ _ hq => rw [sizes_cons, hq.size, sizes_nil, Nat.add_zero]
  | more hlt hq _ ih => rw [sizes_cons, hq.size, ih]; omega

theorem Cut.pos (h : Cut r id dataPtr offset left qs) : 0 < left := by
  cases h with
  | last hpos => exact hpos
  | more hlt => exact Nat.zero_lt_of_lt hlt

theorem Cut.size_pos (hbs : 0 < bs) (h : Cut r id dataPtr offset left qs) :
    ∀ q ∈ qs, 0 < q.size := by
  induction h with
  | last hpos _ hq => exact forall_mem_singleton.mpr (by rw [hq.size]; exact hpos)
  | @more _ offset _ _ _ _ hq _ ih =>
    have hmod := Nat.mod_lt offset hbs
    exact forall_mem_cons.mpr ⟨by rw [hq.size]; omega, ih⟩

theorem Cut.start (hbs : 0 < bs) (h : Cut r id dataPtr offset left qs) :
    ∀ i (hi : i < qs.length),
      qs[i].block * bs + qs[i].offset = offset + Proof.sizes (qs.take i) := by
  induction h with
  | last _ _ hq =>
    intro i hi
    obtain rfl : i = 0 := Nat.lt_one_iff.mp hi
    exact hq.addr
  | @more dataPtr offset left q qs hlt hq _ ih =>
    intro i hi
    cases i with
    | zero => exact hq.addr
    | succ i =>
      have hnext := next_offset hbs offset
      have hi := ih i (Nat.lt_of_succ_lt_succ hi)
      rw [getElem_cons_succ, hi, take_succ_cons, sizes_cons, hq.size]
      omega

theorem Cut.end (hbs : 0 < bs) (h : Cut r id dataPtr offset left qs) :
    ∀ i (hi : i + 1 < qs.length), qs[i].offset + qs[i].size = bs := by
  induction h with
  | last => intro i hi; exact absurd hi (by simp)
  | @more dataPtr offset left q qs hlt hq _ ih =>
    intro i hi
    cases i with
    | zero =>
      have hmod := Nat.mod_lt offset hbs
      rw [getElem_cons_zero, hq.offset, hq.size]
      omega
    | succ i => exact ih i (Nat.lt_of_succ_lt_succ hi)

theorem Cut.begin (h : Cut r id dataPtr offset left qs) :
    ∀ i (hi : i + 1 < qs.length), qs[i + 1].offset = 0 := by
  induction h with
  | last => intro i hi; exact absurd hi (by simp)
  | more hlt hq hcut ih =>
    intro i hi
    cases i with
    | zero =>
      cases hcut with
      | last _ _ hq' | more _ hq' _ => exact hq'.offset.trans (Nat.mul_mod_left _ _)
    | succ i => exact ih i (Nat.lt_of_succ_lt_succ hi)

end Cut

/-! ## The words are those of the numbers -/

variable {g : BlockGuard}

@[simp] theorem toNat_wide : g.wide.toNat = g.blockSize.toNat := UInt32.toNat_toUInt64 _

theorem toNat_mod_wide (w : UInt64) : (w % g.wide).toNat = w.toNat % g.blockSize.toNat := by
  rw [UInt64.toNat_mod, toNat_wide]

theorem toNat_div_wide (w : UInt64) : (w / g.wide).toNat = w.toNat / g.blockSize.toNat := by
  rw [UInt64.toNat_div, toNat_wide]

theorem toNat_lengthByBlock (offset left : UInt64) :
    (g.lengthByBlock offset left).toNat
      = HDCS.lengthByBlock g.blockSize.toNat offset.toNat left.toNat := by
  have hmod := Nat.mod_lt offset.toNat g.blockSize_pos
  have hsub : (g.wide - offset % g.wide).toNat
      = g.blockSize.toNat - offset.toNat % g.blockSize.toNat := by
    rw [UInt64.toNat_sub_of_le, toNat_wide, toNat_mod_wide]
    rw [UInt64.le_iff_toNat_le, toNat_mod_wide, toNat_wide]
    exact Nat.le_of_lt hmod
  unfold BlockGuard.lengthByBlock HDCS.lengthByBlock
  simp only [UInt64.lt_iff_toNat_lt, hsub]
  split
  · exact hsub
  · rfl

theorem lengthByBlock_le (bs offset left : Nat) : HDCS.lengthByBlock bs offset left ≤ left := by
  unfold HDCS.lengthByBlock
  split <;> omega

theorem volume_lt (g : BlockGuard) : g.blockCount.toNat * g.blockSize.toNat < 2 ^ 64 := by
  unfold BlockGuard.blockCount
  rw [toNat_div_wide]
  exact Nat.lt_of_le_of_lt (Nat.div_mul_le_self _ _) g.totalSize.toNat_lt

def words {bs : Nat} (dataPtr : UInt64) : List (BlockRequest bs) → List BlockGuard.BlockRequest
  | [] => []
  | q :: qs => ⟨dataPtr, .ofNat q.offset, .ofNat q.size, .ofNat q.block⟩
      :: words (dataPtr + .ofNat q.size) qs

section Words

variable {bs : Nat} {qs : List (BlockRequest bs)}

@[simp] theorem length_words (dataPtr : UInt64) (qs : List (BlockRequest bs)) :
    (words dataPtr qs).length = qs.length := by
  induction qs generalizing dataPtr with
  | nil => rfl
  | cons q qs ih => rw [words, length_cons, ih, length_cons]

theorem words_take (dataPtr : UInt64) (qs : List (BlockRequest bs)) (i : Nat) :
    (words dataPtr qs).take i = words dataPtr (qs.take i) := by
  induction qs generalizing dataPtr i with
  | nil => rw [words, take_nil, take_nil, words]
  | cons q qs ih =>
    cases i with
    | zero => rfl
    | succ i => rw [words, take_succ_cons, ih, take_succ_cons, words]

theorem words_getElem (dataPtr : UInt64) (qs : List (BlockRequest bs)) (i : Nat)
    (hi : i < qs.length) (hi' : i < (words dataPtr qs).length) :
    (words dataPtr qs)[i] = ⟨dataPtr + .ofNat (sizes (qs.take i)), .ofNat qs[i].offset,
      .ofNat qs[i].size, .ofNat qs[i].block⟩ := by
  induction qs generalizing dataPtr i with
  | nil => exact absurd hi (Nat.not_lt_zero i)
  | cons q qs ih =>
    cases i with
    | zero => simp [words]
    | succ i =>
      have hi := Nat.lt_of_succ_lt_succ hi
      simp only [words, getElem_cons_succ]
      rw [ih _ i hi (by rw [length_words]; exact hi), take_succ_cons, sizes_cons,
        UInt64.ofNat_add, UInt64.add_assoc]

variable (hbs : bs < 2 ^ 64)

include hbs

theorem toNat_ofNat_size (q : BlockRequest bs) : (UInt64.ofNat q.size).toNat = q.size :=
  UInt64.toNat_ofNat_of_lt' (Nat.lt_of_le_of_lt (Nat.le_trans (Nat.le_add_left _ _) q.inBlock) hbs)

theorem toNat_ofNat_offset (q : BlockRequest bs) : (UInt64.ofNat q.offset).toNat = q.offset :=
  UInt64.toNat_ofNat_of_lt' (Nat.lt_of_le_of_lt (Nat.le_trans (Nat.le_add_right _ _) q.inBlock) hbs)

theorem words_sizes (dataPtr : UInt64) (qs : List (BlockRequest bs)) :
    ((words dataPtr qs).map (·.size.toNat)).sum = sizes qs := by
  induction qs generalizing dataPtr with
  | nil => rfl
  | cons q qs ih =>
    rw [words, map_cons, sum_cons, ih, sizes_cons]
    exact congrArg (· + sizes qs) (toNat_ofNat_size hbs q)

end Words

theorem round_eq {l : Loop} (hin : l.offset.toNat + l.left.toNat
    ≤ g.blockCount.toNat * g.blockSize.toNat) (hleft : l.left ≠ 0) :
    g.round l = some {
      dataPtr := l.dataPtr + g.lengthByBlock l.offset l.left
      offset := l.offset + g.lengthByBlock l.offset l.left
      left := l.left - g.lengthByBlock l.offset l.left
      req := l.req.addRequest
      blockRequestList := l.blockRequestList ++ [⟨l.dataPtr, l.offset % g.wide,
        g.lengthByBlock l.offset l.left, l.offset / g.wide⟩] } := by
  have hpos : 0 < l.left.toNat := Nat.pos_of_ne_zero fun h => hleft (UInt64.toNat_inj.mp h)
  have hblock : g.blockMap (l.offset / g.wide) = some (l.offset / g.wide) := by
    refine if_pos ?_
    rw [UInt64.lt_iff_toNat_lt, toNat_div_wide]
    exact Nat.div_lt_of_lt_mul (by rw [Nat.mul_comm]; omega)
  unfold BlockGuard.round
  rw [hblock]
  rfl

/-- **The loop on words does what the loop on numbers does**, and comes to its end. -/
theorem loop_eq (r : Request) (id : Nat) :
    ∀ (fuel dataPtr : Nat) (l : Loop), l.left.toNat ≤ fuel →
      l.offset.toNat + l.left.toNat ≤ g.blockCount.toNat * g.blockSize.toNat →
      ∃ l', g.loop (fuel + 1) l = some l'
        ∧ l'.blockRequestList = l.blockRequestList ++ words l.dataPtr
            (splitLoop g.blockSize.toNat g.blockSize_pos r id fuel dataPtr l.offset.toNat
              l.left.toNat)
        ∧ l'.req = { l.req with
            pendingRequests := l.req.pendingRequests + .ofNat
              (splitLoop g.blockSize.toNat g.blockSize_pos r id fuel dataPtr l.offset.toNat
                l.left.toNat).length }
  | fuel, dataPtr, l, hfuel, hin => by
    by_cases hleft : l.left = 0
    · refine ⟨l, by unfold BlockGuard.loop; exact if_pos hleft, ?_, ?_⟩
      · rw [hleft, UInt64.toNat_zero, splitLoop_zero, words, append_nil]
      · rw [hleft, UInt64.toNat_zero, splitLoop_zero]
        exact congrArg (fun p => { l.req with pendingRequests := p }) (UInt32.add_zero _).symm
    have hpos : 0 < l.left.toNat := Nat.pos_of_ne_zero fun h => hleft (UInt64.toNat_inj.mp h)
    obtain ⟨fuel, rfl⟩ : ∃ k, fuel = k + 1 := ⟨fuel - 1, by omega⟩
    -- in the volume, the words of the next round are the numbers
    have hlen := toNat_lengthByBlock (g := g) l.offset l.left
    have hle := lengthByBlock_le g.blockSize.toNat l.offset.toNat l.left.toNat
    have hone := @HDCS.lengthByBlock_pos _ l.offset.toNat _ g.blockSize_pos hpos
    have hvol := volume_lt g
    have hoff : (l.offset + g.lengthByBlock l.offset l.left).toNat = l.offset.toNat
        + HDCS.lengthByBlock g.blockSize.toNat l.offset.toNat l.left.toNat := by
      rw [UInt64.toNat_add, hlen, Nat.mod_eq_of_lt (by omega)]
    have hrest : (l.left - g.lengthByBlock l.offset l.left).toNat = l.left.toNat
        - HDCS.lengthByBlock g.blockSize.toNat l.offset.toNat l.left.toNat := by
      rw [UInt64.toNat_sub_of_le, hlen]
      rw [UInt64.le_iff_toNat_le, hlen]
      exact hle
    obtain ⟨l', hrun, hlist, hreq⟩ := loop_eq r id fuel
      (dataPtr + HDCS.lengthByBlock g.blockSize.toNat l.offset.toNat l.left.toNat)
      { dataPtr := l.dataPtr + g.lengthByBlock l.offset l.left
        offset := l.offset + g.lengthByBlock l.offset l.left
        left := l.left - g.lengthByBlock l.offset l.left
        req := l.req.addRequest
        blockRequestList := l.blockRequestList ++ [⟨l.dataPtr, l.offset % g.wide,
          g.lengthByBlock l.offset l.left, l.offset / g.wide⟩] }
      (by dsimp only; omega) (by dsimp only; omega)
    dsimp only at hlist hreq
    rw [hoff, hrest] at hlist hreq
    refine ⟨l', ?_, ?_, ?_⟩
    · rw [BlockGuard.loop, if_neg hleft, round_eq hin hleft]
      exact hrun
    · rw [hlist, splitLoop, if_neg (by omega), words, append_assoc]
      dsimp only
      rw [← hlen, ← toNat_mod_wide, ← toNat_div_wide]
      simp only [UInt64.ofNat_toNat, singleton_append]
    · rw [hreq, splitLoop, if_neg (by omega), length_cons, UInt32.ofNat_add]
      unfold Request.addRequest
      rw [UInt32.add_assoc, UInt32.add_comm 1]
      rfl

theorem createBlockRequests_eq (r : BlockGuard.Request) (list : List BlockGuard.BlockRequest)
    (hin : r.offset.toNat + r.length.toNat ≤ g.blockCount.toNat * g.blockSize.toNat) :
    ∃ qs : List (BlockRequest g.blockSize.toNat), g.createBlockRequests r list
        = some ({ r with pendingRequests := r.pendingRequests + .ofNat qs.length },
            list ++ words r.data qs)
      ∧ ((r.length.toNat = 0 ∧ qs = [])
        ∨ ∃ r' : Request, Cut r' 0 0 r.offset.toNat r.length.toNat qs) := by
  let r' : Request := ⟨.write, fun _ => 0, r.offset.toNat, r.length.toNat⟩
  obtain ⟨l, hrun, hlist, hreq⟩ := loop_eq r' 0 r.length.toNat 0
    ⟨r.data, r.offset, r.length, r, list⟩ (Nat.le_refl _) hin
  refine ⟨_, by unfold BlockGuard.createBlockRequests; rw [hrun, Option.map_some, hlist, hreq], ?_⟩
  rcases Nat.eq_zero_or_pos r.length.toNat with hzero | hpos
  · dsimp only
    exact .inl ⟨hzero, by rw [hzero, splitLoop_zero]⟩
  · exact .inr ⟨r', cut_splitLoop g.blockSize_pos r' 0 _ _ _ _ hpos (Nat.le_refl _)⟩

/-! ## The partition -/

/-- The block requests `ps` tile the range of the request. -/
structure Tiles (g : BlockGuard) (r : BlockGuard.Request) (ps : List BlockGuard.BlockRequest) :
    Prop where
  nonempty : ∀ p ∈ ps, 0 < p.size.toNat
  inBlock : ∀ p ∈ ps, p.block.toNat < g.blockCount.toNat
    ∧ p.offset.toNat + p.size.toNat ≤ g.blockSize.toNat
  /-- Each begins where those before it end. -/
  starts : ∀ i (hi : i < ps.length), ps[i].block.toNat * g.blockSize.toNat + ps[i].offset.toNat
    = r.offset.toNat + ((ps.take i).map (·.size.toNat)).sum
  /-- The last ends where the range does. -/
  ends : (ps.map (·.size.toNat)).sum = r.length.toNat
  dataPtr : ∀ i (hi : i < ps.length),
    ps[i].dataPtr = r.data + .ofNat ((ps.take i).map (·.size.toNat)).sum
  blocks : ps.map (·.block.toNat) = List.range' (r.offset.toNat / g.blockSize.toNat) ps.length
  /-- Those in between are for the whole of their block. -/
  whole : ∀ i (hi : i + 1 < ps.length), 0 < i →
    ps[i].offset.toNat = 0 ∧ ps[i].size.toNat = g.blockSize.toNat

theorem tiles_nil {r : BlockGuard.Request} (hlen : r.length.toNat = 0) : Tiles g r [] :=
  ⟨by simp, by simp, by simp, hlen.symm, by simp, rfl, by simp⟩

/-- **The words of a cut tile the range.** -/
theorem tiles_words {r : BlockGuard.Request} {r' : Request}
    {qs : List (BlockRequest g.blockSize.toNat)}
    (hin : r.offset.toNat + r.length.toNat ≤ g.blockCount.toNat * g.blockSize.toNat)
    (h : Cut r' 0 0 r.offset.toNat r.length.toNat qs) : Tiles g r (words r.data qs) := by
  have hbs : g.blockSize.toNat < 2 ^ 64 := by have := g.blockSize.toNat_lt; omega
  have hpos := g.blockSize_pos
  have hblock : ∀ q ∈ qs, (UInt64.ofNat q.block).toNat = q.block := fun q hq =>
    UInt64.toNat_ofNat_of_lt' (Nat.lt_trans (h.block_lt hpos hin q hq) g.blockCount.toNat_lt)
  have hmem : ∀ p ∈ words r.data qs, ∃ q ∈ qs, p.offset.toNat = q.offset
      ∧ p.size.toNat = q.size ∧ p.block.toNat = q.block := by
    intro p hp
    obtain ⟨i, hi, rfl⟩ := mem_iff_getElem.mp hp
    rw [length_words] at hi
    rw [words_getElem _ _ _ hi]
    exact ⟨qs[i], getElem_mem hi, toNat_ofNat_offset hbs _, toNat_ofNat_size hbs _,
      hblock _ (getElem_mem hi)⟩
  constructor
  case nonempty =>
    intro p hp
    obtain ⟨q, hq, -, hsize, -⟩ := hmem p hp
    rw [hsize]
    exact h.size_pos hpos q hq
  case inBlock =>
    intro p hp
    obtain ⟨q, hq, hoffset, hsize, hid⟩ := hmem p hp
    rw [hoffset, hsize, hid]
    exact ⟨h.block_lt hpos hin q hq, q.inBlock⟩
  case starts =>
    intro i hi
    rw [length_words] at hi
    rw [words_take, words_sizes hbs, words_getElem _ _ _ hi]
    dsimp only
    rw [toNat_ofNat_offset hbs, hblock _ (getElem_mem hi)]
    exact h.start hpos i hi
  case ends => rw [words_sizes hbs, h.sizes]
  case dataPtr =>
    intro i hi
    rw [length_words] at hi
    rw [words_take, words_sizes hbs, words_getElem _ _ _ hi]
  case blocks =>
    rw [length_words, ← h.blocks hpos]
    refine ext_getElem (by simp) fun i hi hi' => ?_
    rw [length_map] at hi'
    rw [getElem_map, getElem_map, words_getElem _ _ _ hi']
    exact hblock _ (getElem_mem hi')
  case whole =>
    intro i hi hfirst
    rw [length_words] at hi
    obtain ⟨i, rfl⟩ : ∃ k, i = k + 1 := ⟨i - 1, by omega⟩
    rw [words_getElem _ _ _ (by omega)]
    have hoffset := h.begin i (by omega)
    have hend := h.end hpos (i + 1) hi
    rw [hoffset, Nat.zero_add] at hend
    exact ⟨(toNat_ofNat_offset hbs _).trans hoffset, (toNat_ofNat_size hbs _).trans hend⟩

/--
**Splitting is an exact partition.** `create_block_requests` returns, and what it has
appended tiles the range. `pending_requests` has grown by as many as were appended, if
that fits into 32 bits.
-/
theorem createBlockRequests_partition (g : BlockGuard) (r : BlockGuard.Request)
    (list : List BlockGuard.BlockRequest)
    (hin : r.offset.toNat + r.length.toNat ≤ g.blockCount.toNat * g.blockSize.toNat) :
    ∃ r' ps, g.createBlockRequests r list = some (r', list ++ ps) ∧ Tiles g r ps
      ∧ (r'.pendingRequests.toNat = r.pendingRequests.toNat + ps.length
        ↔ r.pendingRequests.toNat + ps.length < 2 ^ 32) := by
  obtain ⟨qs, hrun, hqs⟩ := createBlockRequests_eq r list hin
  refine ⟨_, _, hrun, ?_, ?_⟩
  · rcases hqs with ⟨hzero, rfl⟩ | ⟨r', hcut⟩
    · exact tiles_nil hzero
    · exact tiles_words hin hcut
  · dsimp only
    rw [length_words, UInt32.toNat_add, UInt32.toNat_ofNat', Nat.add_mod_mod]
    exact ⟨fun h => h ▸ Nat.mod_lt _ (by decide), Nat.mod_eq_of_lt⟩

/-- A volume of two blocks of four bytes. -/
def twoBlocks : BlockGuard := ⟨8, 4, by decide⟩

/-- The five bytes from 2 on. -/
theorem createBlockRequests_twoBlocks :
    ∃ r' ps, twoBlocks.createBlockRequests ⟨100, 2, 5, 0⟩ [] = some (r', [] ++ ps)
      ∧ Tiles twoBlocks ⟨100, 2, 5, 0⟩ ps
      ∧ ((r'.pendingRequests.toNat = 0 + ps.length) ↔ 0 + ps.length < 2 ^ 32) :=
  createBlockRequests_partition twoBlocks ⟨100, 2, 5, 0⟩ [] (by decide)

/-- A volume of `2 ^ 32` blocks of one byte. -/
def tinyBlocks : BlockGuard := ⟨4294967296, 1, by decide⟩

theorem tinyBlocks_run {n : UInt64} (hpos : 0 < n.toNat) (hn : n.toNat ≤ 2 ^ 32) :
    ∃ ps, tinyBlocks.createBlockRequests ⟨0, 0, n, 0⟩ []
        = some (⟨0, 0, n, 0 + .ofNat ps.length⟩, ps) ∧ ps.length = n.toNat := by
  obtain ⟨qs, hrun, hqs⟩ := createBlockRequests_eq (g := tinyBlocks) ⟨0, 0, n, 0⟩ []
    ((Nat.zero_add _).symm ▸ hn)
  have hlen : qs.length = n.toNat := by
    rcases hqs with ⟨hzero, -⟩ | ⟨r', hcut⟩
    · exact absurd hzero (Nat.ne_of_gt hpos)
    · have hcount : HDCS.sharedCount 1 0 n.toNat = n.toNat := by
        simp [HDCS.sharedCount, Nat.mod_one]
      exact (hcut.length (by decide)).trans hcount
  refine ⟨words 0 qs, ?_, by rw [length_words, hlen]⟩
  rw [hrun, length_words, nil_append]

/-- A request for all of it: nothing is pending when `create_block_requests` returns. -/
theorem createBlockRequests_pending_wraps :
    ∃ r' ps, tinyBlocks.createBlockRequests ⟨0, 0, 4294967296, 0⟩ [] = some (r', ps)
      ∧ ps.length = 2 ^ 32 ∧ r'.pendingRequests = 0 := by
  obtain ⟨ps, hrun, hlen⟩ := @tinyBlocks_run 4294967296 (by decide) (by decide)
  exact ⟨_, ps, hrun, hlen, by rw [hlen]; rfl⟩

/-! ## The armed count -/

theorem toInt_emod (w : UInt64) : toInt w % 2 ^ 8 = (w.toNat % 2 ^ 8 : Nat) := by
  have hdvd : (2 : Int) ^ 8 ∣ (2 ^ 32 : Nat) := by decide
  calc toInt w % 2 ^ 8
      = toInt w % (2 ^ 32 : Nat) % 2 ^ 8 := (Int.emod_emod_of_dvd _ hdvd).symm
    _ = (w.toNat : Int) % (2 ^ 32 : Nat) % 2 ^ 8 := by unfold toInt; rw [Int.bmod_emod]
    _ = (w.toNat : Int) % 2 ^ 8 := Int.emod_emod_of_dvd _ hdvd
    _ = (w.toNat % 2 ^ 8 : Nat) := by norm_cast

theorem armedCount_words (r : BlockGuard.Request)
    (hin : r.offset.toNat + r.length.toNat ≤ g.blockCount.toNat * g.blockSize.toNat) :
    g.armedCount r
      = (HDCS.sharedCount g.blockSize.toNat r.offset.toNat r.length.toNat % 2 ^ 8 : Nat) := by
  have hvol := volume_lt g
  have hmod := Nat.mod_le r.offset.toNat g.blockSize.toNat
  have htmp : (r.length + r.offset % g.wide).toNat
      = r.length.toNat + r.offset.toNat % g.blockSize.toNat := by
    rw [UInt64.toNat_add, toNat_mod_wide, Nat.mod_eq_of_lt (by omega)]
  have hcond : (r.length + r.offset % g.wide) % g.wide = 0
      ↔ (r.length.toNat + r.offset.toNat % g.blockSize.toNat) % g.blockSize.toNat = 0 := by
    rw [← UInt64.toNat_inj, toNat_mod_wide, htmp, UInt64.toNat_zero]
  have hcount : ((if (r.length + r.offset % g.wide) % g.wide = 0 then 0 else 1)
      + (r.length + r.offset % g.wide) / g.wide).toNat % 2 ^ 8
      = HDCS.sharedCount g.blockSize.toNat r.offset.toNat r.length.toNat % 2 ^ 8 := by
    unfold HDCS.sharedCount
    rw [UInt64.toNat_add, toNat_div_wide, htmp, Nat.mod_mod_of_dvd _ (by decide)]
    simp only [hcond]
    split <;> rfl
  unfold BlockGuard.armedCount BlockGuard.sharedCount
  rw [toInt_emod, hcount]

theorem sharedCount_empty {bs : Nat} (hbs : 0 < bs) (offset : Nat) :
    HDCS.sharedCount bs offset 0 = if offset % bs = 0 then 0 else 1 := by
  have hmod := Nat.mod_lt offset hbs
  unfold HDCS.sharedCount
  dsimp only
  rw [Nat.zero_add, Nat.mod_mod, Nat.div_eq_of_lt hmod, Nat.add_zero]

/--
**The armed count.** It is the number of block requests as long as that is less than 256, unless
the request is empty and does not begin with a block: then one is counted, and there is none.
-/
theorem armedCount_eq_length_iff (g : BlockGuard) (r : BlockGuard.Request)
    (list : List BlockGuard.BlockRequest)
    (hin : r.offset.toNat + r.length.toNat ≤ g.blockCount.toNat * g.blockSize.toNat) :
    ∃ r' ps, g.createBlockRequests r list = some (r', list ++ ps)
      ∧ (g.armedCount r = ps.length
        ↔ ps.length < 256 ∧ (r.length.toNat = 0 → g.blockSize.toNat ∣ r.offset.toNat)) := by
  obtain ⟨qs, hrun, hqs⟩ := createBlockRequests_eq r list hin
  refine ⟨_, _, hrun, ?_⟩
  rw [length_words, armedCount_words r hin, Int.ofNat_inj]
  rcases hqs with ⟨hzero, rfl⟩ | ⟨r', hcut⟩
  -- the formula counts the block an empty range begins in
  · rw [hzero, sharedCount_empty g.blockSize_pos, Nat.dvd_iff_mod_eq_zero]
    split <;> simp [*]
  · have hpos := hcut.pos
    rw [← hcut.length g.blockSize_pos]
    exact ⟨fun h => ⟨h ▸ Nat.mod_lt _ (by decide), fun h => absurd h (by omega)⟩,
      fun h => Nat.mod_eq_of_lt h.1⟩

/-- Five bytes in two blocks. -/
theorem armedCount_twoBlocks :
    ∃ r' ps, twoBlocks.createBlockRequests ⟨100, 2, 5, 0⟩ [] = some (r', [] ++ ps)
      ∧ (twoBlocks.armedCount ⟨100, 2, 5, 0⟩ = ps.length
        ↔ ps.length < 256 ∧ ((5 : UInt64).toNat = 0 → (4 : UInt32).toNat ∣ (2 : UInt64).toNat)) :=
  armedCount_eq_length_iff twoBlocks ⟨100, 2, 5, 0⟩ [] (by decide)

/--
A request for 256 blocks arms the completion with nothing; one for no bytes from 2 on arms it with
one.
-/
theorem armedCount_off :
    (∃ r' ps, tinyBlocks.createBlockRequests ⟨0, 0, 256, 0⟩ [] = some (r', ps)
      ∧ ps.length = 256 ∧ tinyBlocks.armedCount ⟨0, 0, 256, 0⟩ = 0)
    ∧ ∃ r', twoBlocks.createBlockRequests ⟨0, 2, 0, 0⟩ [] = some (r', [])
      ∧ twoBlocks.armedCount ⟨0, 2, 0, 0⟩ = 1 := by
  refine ⟨?_, _, rfl, by decide +kernel⟩
  obtain ⟨ps, hrun, hlen⟩ := @tinyBlocks_run 256 (by decide) (by decide)
  exact ⟨_, ps, hrun, hlen, by decide +kernel⟩

end HDCS.Proof
