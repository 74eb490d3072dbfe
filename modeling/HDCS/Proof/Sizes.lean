import HDCS.Core.Sizes
import HDCS.Proof.Restart
import HDCS.Proof.Splitting

/-!
# Whether the components agree on how many blocks there are

`BlockGuard` rounds down and `CachePolicy` counts one more than that; the store rounds
up. So where the sizes are multiples of `block_size`, the cache policy reads a word
behind the metadata and gives out a slot behind the data; and where `total_size` is not
one, the last bytes of the volume are in a block that has no `Block`.
-/

namespace HDCS.Proof

open Lib

variable {z : Sizes}

/-! ## The counts as numbers -/

theorem toNat_blockSize64 (z : Sizes) : z.blockSize64.toNat = z.blockSize.toNat :=
  UInt32.toNat_toUInt64 _

theorem toNat_blockCount (z : Sizes) :
    z.blockCount.toNat = z.totalSize.toNat / z.blockSize.toNat := by
  rw [Sizes.blockCount, UInt64.toNat_div, toNat_blockSize64]

theorem toNat_storeBlocks (z : Sizes) (size : UInt64) : (z.storeBlocks size).toNat =
    size.toNat / z.blockSize.toNat + if z.blockSize.toNat ∣ size.toNat then 0 else 1 := by
  have hbs := z.blockSize_pos
  have hmod : size % z.blockSize64 ≠ 0 ↔ ¬ z.blockSize.toNat ∣ size.toNat := by
    rw [Nat.dvd_iff_mod_eq_zero, ne_eq, ← UInt64.toNat_inj, UInt64.toNat_mod, toNat_blockSize64]
    rfl
  unfold Sizes.storeBlocks
  by_cases hdvd : z.blockSize.toNat ∣ size.toNat
  · rw [if_neg (by rw [hmod]; exact not_not_intro hdvd), if_pos hdvd, UInt64.toNat_div,
      toNat_blockSize64, Nat.add_zero]
  · rw [if_pos (hmod.mpr hdvd), if_neg hdvd, UInt64.toNat_add, UInt64.toNat_div, toNat_blockSize64]
    -- a size that is no multiple has a block size of at least two, so one more fits
    have htwo : 2 ≤ z.blockSize.toNat := by
      rcases Nat.lt_or_ge z.blockSize.toNat 2 with hlt | hge
      · rw [show z.blockSize.toNat = 1 by omega] at hdvd
        exact absurd ⟨_, (Nat.one_mul _).symm⟩ hdvd
      · exact hge
    have hdiv : size.toNat / z.blockSize.toNat ≤ size.toNat / 2 :=
      Nat.div_le_div_left htwo (by omega)
    have hlt := size.toNat_lt
    exact Nat.mod_eq_of_lt (by rw [UInt64.toNat_one]; omega)

/-- The only sizes for which the count of `CachePolicy` does not fit. -/
def Wraps (z : Sizes) : Prop := z.blockSize.toNat = 1 ∧ z.totalSize.toNat = 2 ^ 64 - 1

theorem toNat_cacheBlocks (z : Sizes) (h : ¬ Wraps z) :
    z.cacheBlocks.toNat = z.totalSize.toNat / z.blockSize.toNat + 1 := by
  have hbs := z.blockSize_pos
  have hlt := z.totalSize.toNat_lt
  rw [Sizes.cacheBlocks, UInt64.toNat_add, UInt64.toNat_div, toNat_blockSize64, UInt64.toNat_one]
  refine Nat.mod_eq_of_lt ?_
  by_cases hone : z.blockSize.toNat = 1
  · have hne : z.totalSize.toNat ≠ 2 ^ 64 - 1 := fun heq => h ⟨hone, heq⟩
    rw [hone, Nat.div_one]
    omega
  · have hdiv : z.totalSize.toNat / z.blockSize.toNat ≤ z.totalSize.toNat / 2 :=
      Nat.div_le_div_left (by omega) (by omega)
    omega

theorem toNat_cacheBlocks_of_wraps (h : Wraps z) : z.cacheBlocks.toNat = 0 := by
  rw [Sizes.cacheBlocks, UInt64.toNat_add, UInt64.toNat_div, toNat_blockSize64, h.1, h.2]
  rfl

theorem entriesCount_eq (z : Sizes) : z.entriesCount =
    if z.cacheSize.toNat / z.blockSize.toNat % 2 ^ 32 < 2 ^ 31 then
      z.cacheSize.toNat / z.blockSize.toNat % 2 ^ 32 + 1 else 0 := by
  have hq : (z.cacheBlocksCount - 1).toNat = z.cacheSize.toNat / z.blockSize.toNat := by
    rw [Sizes.cacheBlocksCount, UInt64.add_sub_cancel, UInt64.toNat_div, toNat_blockSize64]
  unfold Sizes.entriesCount
  rw [hq, BitVec.toInt_eq_toNat_cond, BitVec.toNat_ofNat]
  split <;> split <;> omega

/-! ## Who stays in range -/

/-- Every request for bytes of the volume is for blocks that there are. -/
def RequestsInRange (z : Sizes) : Prop :=
  ∀ (id : Nat) (r : Request), r.offset + r.length ≤ z.totalSize.toNat →
    ∀ q ∈ createBlockRequests z.blockSize.toNat z.blockSize_pos id r, q.block < z.blockCount.toNat

/-- `CachePolicy` asks for words that there are. -/
def CacheMetaInRange (z : Sizes) : Prop := ∀ b ∈ z.cacheMetaIds, b < z.metaBlockCount.toNat

/-- `CachePolicy` looks up blocks that there are. -/
def CacheMapInRange (z : Sizes) (blockMeta : Nat → BlockStatus) : Prop :=
  ∀ b ∈ z.cacheMapIds blockMeta, b < z.blockCount.toNat

/-- `TierPolicy` does both. -/
def TierInRange (z : Sizes) : Prop :=
  ∀ b ∈ z.tierIds, b < z.blockCount.toNat ∧ b < z.metaBlockCount.toNat

/-- Every entry has a slot in the data file. -/
def EntriesInRange (z : Sizes) : Prop := ∀ k, z.entryId k < z.dataBlockCount.toNat

/-- All of that. -/
structure ComponentsAgree (z : Sizes) (blockMeta : Nat → BlockStatus) : Prop where
  requests : RequestsInRange z
  cacheMeta : CacheMetaInRange z
  cacheMap : CacheMapInRange z blockMeta
  tier : TierInRange z
  entries : EntriesInRange z

theorem requestsInRange_iff : RequestsInRange z ↔ z.blockSize.toNat ∣ z.totalSize.toNat := by
  have hbs := z.blockSize_pos
  unfold RequestsInRange
  rw [toNat_blockCount]
  constructor
  · intro h
    by_contra hdvd
    -- the first byte behind the last whole block
    have hmod : 0 < z.totalSize.toNat % z.blockSize.toNat :=
      Nat.pos_of_ne_zero fun h0 => hdvd (Nat.dvd_of_mod_eq_zero h0)
    have hsum := Nat.div_add_mod z.totalSize.toNat z.blockSize.toNat
    let r : Request :=
      ⟨.read, fun _ => 0, z.blockSize.toNat * (z.totalSize.toNat / z.blockSize.toNat), 1⟩
    have hle : r.offset + r.length ≤ z.totalSize.toNat := by
      show z.blockSize.toNat * (z.totalSize.toNat / z.blockSize.toNat) + 1 ≤ _
      omega
    obtain ⟨q, hq, hblock⟩ := (cut_createBlockRequests z.blockSize_pos 0 (r := r) Nat.one_pos).first
    have hlt := h 0 r hle q hq
    rw [hblock, Nat.mul_div_cancel_left _ hbs] at hlt
    exact absurd hlt (Nat.lt_irrefl _)
  · intro hdvd id r hle q hq
    by_cases hpos : 0 < r.length
    · refine (cut_createBlockRequests z.blockSize_pos id hpos).block_lt z.blockSize_pos ?_ q hq
      rw [Nat.div_mul_cancel hdvd]
      exact hle
    · rw [createBlockRequests, show r.length = 0 by omega, splitLoop_zero] at hq
      cases hq

theorem cacheMetaInRange_iff :
    CacheMetaInRange z ↔ Wraps z ∨ ¬ z.blockSize.toNat ∣ z.totalSize.toNat := by
  unfold CacheMetaInRange Sizes.cacheMetaIds Sizes.metaBlockCount
  rw [toNat_storeBlocks]
  by_cases hwraps : Wraps z
  · rw [toNat_cacheBlocks_of_wraps hwraps]
    simp [hwraps]
  · rw [toNat_cacheBlocks z hwraps]
    simp only [List.mem_range, hwraps, false_or]
    constructor
    · intro h hdvd
      have hlast := h _ (Nat.lt_succ_self _)
      rw [if_pos hdvd] at hlast
      omega
    · intro hdvd b hb
      rw [if_neg hdvd]
      exact hb

theorem cacheMapInRange_iff {blockMeta : Nat → BlockStatus} : CacheMapInRange z blockMeta ↔
    Wraps z ∨ blockMeta (z.totalSize.toNat / z.blockSize.toNat) >>> 30 = 0 := by
  unfold CacheMapInRange Sizes.cacheMapIds Sizes.cacheMetaIds
  rw [toNat_blockCount]
  by_cases hwraps : Wraps z
  · rw [toNat_cacheBlocks_of_wraps hwraps]
    simp [hwraps]
  · rw [toNat_cacheBlocks z hwraps]
    simp only [List.mem_filter, List.mem_range, decide_eq_true_eq, hwraps, false_or]
    constructor
    · intro h
      by_contra hne
      exact absurd (h _ ⟨Nat.lt_succ_self _, hne⟩) (Nat.lt_irrefl _)
    · rintro h b ⟨hb, hne⟩
      -- the last one is not cached
      refine Nat.lt_of_le_of_ne (Nat.le_of_lt_succ hb) ?_
      rintro rfl
      exact hne h

theorem tierInRange (z : Sizes) : TierInRange z := by
  intro b hb
  have hlt : b < z.totalSize.toNat / z.blockSize.toNat := by
    rw [← toNat_blockCount]
    exact List.mem_range.mp hb
  rw [toNat_blockCount, Sizes.metaBlockCount, toNat_storeBlocks]
  exact ⟨hlt, by omega⟩

theorem entriesInRange_iff : EntriesInRange z ↔
    ¬ z.blockSize.toNat ∣ z.cacheSize.toNat ∨ 2 ^ 31 ≤ z.cacheSize.toNat / z.blockSize.toNat := by
  have hcount := entriesCount_eq z
  have hle : z.entriesCount ≤ 2 ^ 31 := by
    rw [hcount]
    split <;> omega
  have hid : ∀ k, z.entryId k = z.entriesCount - 1 - k := fun k => toNat_newEntries hle k
  unfold EntriesInRange Sizes.dataBlockCount
  simp only [hid, toNat_storeBlocks]
  generalize z.cacheSize.toNat / z.blockSize.toNat = blocks at hcount ⊢
  constructor
  · intro h
    by_contra hno
    obtain ⟨hdvd, hsmall⟩ : z.blockSize.toNat ∣ z.cacheSize.toNat
        ∧ blocks < 2 ^ 31 := by
      constructor
      · by_contra hdvd
        exact hno (Or.inl hdvd)
      · by_contra hbig
        exact hno (Or.inr (by omega))
    -- the entry at the front has the highest id
    have hpos : 0 < z.entriesCount := by
      rw [hcount]
      split <;> omega
    have hfirst := h ⟨0, hpos⟩
    rw [if_pos hdvd] at hfirst
    simp only at hfirst
    split at hcount <;> omega
  · intro h k
    have hk := k.isLt
    by_cases hdvd : z.blockSize.toNat ∣ z.cacheSize.toNat
    · rw [if_pos hdvd]
      have hbig := h.resolve_left (not_not_intro hdvd)
      split at hcount <;> omega
    · rw [if_neg hdvd]
      split at hcount <;> omega

/--
**Who is in range for which sizes.** The tier policy always is. A request is if
`total_size` is a multiple of `block_size`, the metadata that the cache policy reads if
it is none, and its entries if `cache_size` is none. So all of them agree only where
the count of the cache policy overflows, and it makes no entries either.
-/
theorem componentsAgree_iff (z : Sizes) (blockMeta : Nat → BlockStatus) :
    (ComponentsAgree z blockMeta ↔ Wraps z ∧ 2 ^ 31 ≤ z.cacheSize.toNat)
      ∧ (RequestsInRange z ↔ z.blockSize.toNat ∣ z.totalSize.toNat)
      ∧ (CacheMetaInRange z ↔ Wraps z ∨ ¬ z.blockSize.toNat ∣ z.totalSize.toNat)
      ∧ (CacheMapInRange z blockMeta ↔
          Wraps z ∨ blockMeta (z.totalSize.toNat / z.blockSize.toNat) >>> 30 = 0)
      ∧ TierInRange z
      ∧ (EntriesInRange z ↔ ¬ z.blockSize.toNat ∣ z.cacheSize.toNat
          ∨ 2 ^ 31 ≤ z.cacheSize.toNat / z.blockSize.toNat) := by
  refine ⟨?_, requestsInRange_iff, cacheMetaInRange_iff, cacheMapInRange_iff, tierInRange z,
    entriesInRange_iff⟩
  constructor
  · intro h
    have hdvd := requestsInRange_iff.mp h.requests
    have hwraps := (cacheMetaInRange_iff.mp h.cacheMeta).resolve_right (not_not_intro hdvd)
    have hentries := entriesInRange_iff.mp h.entries
    rw [hwraps.1, Nat.div_one] at hentries
    exact ⟨hwraps, hentries.resolve_left (not_not_intro ⟨_, (Nat.one_mul _).symm⟩)⟩
  · rintro ⟨hwraps, hbig⟩
    have hdvd : z.blockSize.toNat ∣ z.totalSize.toNat := by
      rw [hwraps.1]
      exact ⟨_, (Nat.one_mul _).symm⟩
    exact ⟨requestsInRange_iff.mpr hdvd, cacheMetaInRange_iff.mpr (Or.inl hwraps),
      cacheMapInRange_iff.mpr (Or.inl hwraps), tierInRange z,
      entriesInRange_iff.mpr (Or.inr (by rw [hwraps.1, Nat.div_one]; exact hbig))⟩

/-- Four blocks and a cache of two; and half a block more. -/
theorem components_disagree :
    ¬ CacheMetaInRange ⟨16, 8, 4, by decide⟩ ∧ ¬ EntriesInRange ⟨16, 8, 4, by decide⟩
      ∧ ¬ RequestsInRange ⟨18, 8, 4, by decide⟩
      ∧ ¬ ComponentsAgree ⟨16, 8, 4, by decide⟩ (fun _ => 0)
      ∧ ¬ ComponentsAgree ⟨18, 8, 4, by decide⟩ (fun _ => 0) := by
  have hmeta : ¬ CacheMetaInRange ⟨16, 8, 4, by decide⟩ := by
    rw [cacheMetaInRange_iff]
    unfold Wraps
    decide
  have hentries : ¬ EntriesInRange ⟨16, 8, 4, by decide⟩ := by
    rw [entriesInRange_iff]
    decide
  have hrequests : ¬ RequestsInRange ⟨18, 8, 4, by decide⟩ := by
    rw [requestsInRange_iff]
    decide
  exact ⟨hmeta, hentries, hrequests, fun h => hmeta h.cacheMeta, fun h => hrequests h.requests⟩

end HDCS.Proof
