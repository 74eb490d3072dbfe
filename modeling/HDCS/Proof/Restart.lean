import HDCS.Proof.Steps

/-!
# What the constructor builds

`CachePolicy::CachePolicy` runs three loops: it pushes the entries, it inverts
the metadata table into an array indexed by entry number, and it walks the
entries and that array side by side. The third loop pairs the two *by position*,
but the first one pushes the entries from the last number down, so the entry at
position `k` has number `n - 1 - k`.

On a zeroed table nothing is paired and the order does not matter: the cache
starts with every entry free (`fresh_inv`). On any other table a block comes back
with the entry whose number is mirrored, so a restart restores the mapping only
where the mirror image of a slot is the slot itself.
-/

namespace HDCS.Proof

open Lib LruList CachePolicy Function List

/-! ## The entries -/

def freshEntry (i : Nat) : Entry := ⟨UInt32.ofNat i, unpromoted, none⟩

theorem pushEntries_eq : ∀ (i : Nat) (acc : List Entry),
    pushEntries i acc = acc ++ (List.range i).reverse.map freshEntry
  | 0, acc => by rw [pushEntries]; simp
  | i + 1, acc => by
    rw [pushEntries, pushEntries_eq i, range_succ, reverse_append]
    simp [freshEntry]

theorem newEntries_eq (n : Nat) (k : Fin n) : newEntries n k = freshEntry (n - 1 - k) := by
  unfold newEntries
  rw [get_eq_getElem, getElem_of_eq (pushEntries_eq n [])]
  simp

theorem entriesCount_le (cfg : CacheConfig) : cfg.entriesCount ≤ 2 ^ 31 := by
  unfold CacheConfig.entriesCount
  have : (BitVec.ofNat 32 (cfg.cacheBlocksCount - 1)).toInt < 2 ^ 31 := BitVec.toInt_lt
  omega

theorem toNat_newEntries {n : Nat} (hn : n ≤ 2 ^ 31) (k : Fin n) :
    (newEntries n k).entryId.toNat = n - 1 - k := by
  rw [newEntries_eq]
  exact UInt32.toNat_ofNat_of_lt' (by simp [UInt32.size]; omega)

theorem newEntries_toNat (cfg : CacheConfig) (k : Fin cfg.entriesCount) :
    (newEntries cfg.entriesCount k).entryId.toNat = cfg.entriesCount - 1 - k :=
  toNat_newEntries (entriesCount_le cfg) k

theorem newEntries_injective (cfg : CacheConfig) :
    Injective fun k => (newEntries cfg.entriesCount k).entryId := by
  intro j k hjk
  have h := congrArg UInt32.toNat hjk
  simp only [newEntries_toNat] at h
  exact Fin.ext (by omega)

/-! ## Loading the metadata -/

def Names (blockMeta : Nat → BlockStatus) (b e : Nat) : Prop :=
  blockMeta b >>> 30 ≠ 0 ∧ (blockMeta b &&& 0x3FFFFFFF).toNat = e

structure Loaded (blockMeta : Nat → BlockStatus) (done : List Nat) (m : Nat → EntryToBlock) :
    Prop where
  sound : ∀ e, (m e).valid = true → (m e).block ∈ done ∧ Names blockMeta (m e).block e
    ∧ (m e).status = blockMeta (m e).block &&& 0xC0000000
  complete : ∀ b ∈ done, ∀ e, Names blockMeta b e → (m e).valid = true

theorem Loaded.loadMeta {blockMeta : Nat → BlockStatus} {done : List Nat}
    {m : Nat → EntryToBlock} (h : Loaded blockMeta done m) (b : Nat) :
    Loaded blockMeta (done ++ [b]) (CachePolicy.loadMeta blockMeta m b) := by
  unfold CachePolicy.loadMeta
  dsimp only
  split
  · rename_i hb
    refine ⟨?_, ?_⟩
    · intro e he
      by_cases hq : e = (blockMeta b &&& 0x3FFFFFFF).toNat
      · subst hq
        rw [update_self]
        exact ⟨by simp, ⟨hb, rfl⟩, rfl⟩
      · rw [update_of_ne hq] at he ⊢
        obtain ⟨h1, h2⟩ := h.sound e he
        exact ⟨mem_append_left _ h1, h2⟩
    · intro b' hb' e hn
      by_cases hq : e = (blockMeta b &&& 0x3FFFFFFF).toNat
      · subst hq
        rw [update_self]
      · rw [update_of_ne hq]
        rcases mem_append.mp hb' with hb' | hb'
        · exact h.complete b' hb' e hn
        · rw [mem_singleton.mp hb'] at hn
          exact absurd hn.2.symm hq
  · rename_i hb
    refine ⟨?_, ?_⟩
    · intro e he
      obtain ⟨h1, h2⟩ := h.sound e he
      exact ⟨mem_append_left _ h1, h2⟩
    · intro b' hb' e hn
      rcases mem_append.mp hb' with hb' | hb'
      · exact h.complete b' hb' e hn
      · rw [mem_singleton.mp hb'] at hn
        exact absurd hn.1 hb

theorem entryToBlockMap_loaded (cfg : CacheConfig) (blockMeta : Nat → BlockStatus) :
    Loaded blockMeta (List.range cfg.blocksCount) (entryToBlockMap cfg blockMeta) :=
  Machine.foldl_invariant ⟨fun _ h => absurd h (by simp), fun _ h => absurd h (by simp)⟩
    (fun _ b _ h => h.loadMeta b) _

/-! ## Pairing -/

section Pairing

variable {n : Nat}

structure Paired (m : Nat → EntryToBlock) (s₀ : CacheState n) (done : List (Fin n))
    (s : CacheState n) : Prop where
  entryId : ∀ k, (s.entries k).entryId = (s₀.entries k).entryId
  status : ∀ k, (s.entries k).status
    = if k ∈ done ∧ (m k).valid then (m k).status else (s₀.entries k).status
  entry : ∀ b k, s.entry b = some k → k ∈ done ∧ (m k).valid = true ∧ (m k).block = b
  attached : ∀ k ∈ done, (m k).valid = true → s.entry (m k).block ≠ none
  free : ∀ k, k ∈ s.freeLru ↔ k ∈ done ∧ (m k).valid = false
  dirty : ∀ b, b ∈ s.dirtyLru ↔
    ∃ k ∈ done, (m k).valid = true ∧ (m k).status = promotedUnflushed ∧ (m k).block = b
  clean : ∀ b, b ∈ s.cleanLru ↔
    ∃ k ∈ done, (m k).valid = true ∧ (m k).status = flushed ∧ (m k).block = b
  nodup : ListsNodup s
  same : s.inDiscardProcess = s₀.inDiscardProcess ∧ s.cacheData = s₀.cacheData
    ∧ s.blockMeta = s₀.blockMeta ∧ s.backData = s₀.backData

variable {m : Nat → EntryToBlock} {s₀ s : CacheState n} {done : List (Fin n)} {k : Fin n}

theorem promotedUnflushed_ne_flushed : promotedUnflushed ≠ flushed := by decide

theorem pairEntry_valid (h : (m k).valid = true) :
    (pairEntry m s k).entries
        = update s.entries k { s.entries k with status := (m k).status }
      ∧ (pairEntry m s k).entry = update s.entry (m k).block (some k)
      ∧ (pairEntry m s k).freeLru = s.freeLru
      ∧ (pairEntry m s k).dirtyLru
        = (if (m k).status = promotedUnflushed then touchKey (m k).block s.dirtyLru else s.dirtyLru)
      ∧ (pairEntry m s k).cleanLru
        = (if (m k).status = flushed then touchKey (m k).block s.cleanLru else s.cleanLru)
      ∧ (pairEntry m s k).inDiscardProcess = s.inDiscardProcess
      ∧ (pairEntry m s k).cacheData = s.cacheData
      ∧ (pairEntry m s k).blockMeta = s.blockMeta
      ∧ (pairEntry m s k).backData = s.backData := by
  unfold pairEntry
  rw [if_pos h]
  dsimp only
  by_cases hp : (m k).status = promotedUnflushed
  · have hf : (m k).status ≠ flushed := hp ▸ promotedUnflushed_ne_flushed
    rw [if_pos hp, if_pos hp, if_neg hf]
    exact ⟨rfl, rfl, rfl, rfl, rfl, rfl, rfl, rfl, rfl⟩
  · rw [if_neg hp, if_neg hp]
    by_cases hf : (m k).status = flushed
    · rw [if_pos hf, if_pos hf]
      exact ⟨rfl, rfl, rfl, rfl, rfl, rfl, rfl, rfl, rfl⟩
    · rw [if_neg hf, if_neg hf]
      exact ⟨rfl, rfl, rfl, rfl, rfl, rfl, rfl, rfl, rfl⟩

theorem mem_touched {l : List Nat} {st : BlockStatus} (hv : (m k).valid = true)
    (h : ∀ b, b ∈ l ↔ ∃ j ∈ done, (m j).valid = true ∧ (m j).status = st ∧ (m j).block = b)
    (b : Nat) : b ∈ (if (m k).status = st then touchKey (m k).block l else l) ↔
      ∃ j ∈ done ++ [k], (m j).valid = true ∧ (m j).status = st ∧ (m j).block = b := by
  constructor
  · intro hb
    split at hb
    · rename_i hst
      rcases mem_touchKey.mp hb with rfl | hb
      · exact ⟨k, by simp, hv, hst, rfl⟩
      · obtain ⟨j, hj, hj'⟩ := (h b).mp hb
        exact ⟨j, mem_append_left _ hj, hj'⟩
    · obtain ⟨j, hj, hj'⟩ := (h b).mp hb
      exact ⟨j, mem_append_left _ hj, hj'⟩
  · rintro ⟨j, hj, hj'⟩
    rcases mem_append.mp hj with hj | hj
    · have hb := (h b).mpr ⟨j, hj, hj'⟩
      split
      · exact mem_touchKey.mpr (Or.inr hb)
      · exact hb
    · rw [mem_singleton.mp hj] at hj'
      rw [if_pos hj'.2.1]
      exact mem_touchKey.mpr (Or.inl hj'.2.2.symm)

theorem exists_snoc_of_invalid {p : Fin n → Prop} (hv : (m k).valid = false) :
    (∃ j ∈ done ++ [k], (m j).valid = true ∧ p j) ↔ ∃ j ∈ done, (m j).valid = true ∧ p j := by
  constructor
  · rintro ⟨j, hj, hj'⟩
    rcases mem_append.mp hj with hj | hj
    · exact ⟨j, hj, hj'⟩
    · rw [mem_singleton.mp hj, hv] at hj'
      exact absurd hj'.1 (by simp)
  · rintro ⟨j, hj, hj'⟩
    exact ⟨j, mem_append_left _ hj, hj'⟩

theorem Paired.pairEntry_of_valid (h : Paired m s₀ done s) (hv : (m k).valid = true) :
    Paired m s₀ (done ++ [k]) (CachePolicy.pairEntry m s k) := by
  obtain ⟨he, hb, hf, hd, hc, hi, hcd, hm, hbd⟩ := pairEntry_valid (s := s) hv
  refine ⟨?_, ?_, ?_, ?_, ?_, ?_, ?_, ?_, ?_⟩
  · intro j
    rw [he, ← h.entryId j]
    by_cases hj : j = k
    · subst hj; rw [update_self]
    · rw [update_of_ne hj]
  · intro j
    rw [he]
    by_cases hj : j = k
    · subst hj; rw [update_self, if_pos ⟨by simp, hv⟩]
    · rw [update_of_ne hj, h.status j]
      simp [hj]
  · intro b j hj
    rw [hb] at hj
    by_cases hbk : b = (m k).block
    · subst hbk
      rw [update_self] at hj
      cases hj
      exact ⟨by simp, hv, rfl⟩
    · rw [update_of_ne hbk] at hj
      obtain ⟨h1, h2⟩ := h.entry b j hj
      exact ⟨mem_append_left _ h1, h2⟩
  · intro j hj hjv
    rw [hb]
    by_cases hbk : (m j).block = (m k).block
    · rw [hbk, update_self]; simp
    · rw [update_of_ne hbk]
      rcases mem_append.mp hj with hj | hj
      · exact h.attached j hj hjv
      · rw [mem_singleton.mp hj] at hbk; exact absurd rfl hbk
  · intro j
    rw [hf, h.free j]
    constructor
    · rintro ⟨h1, h2⟩; exact ⟨mem_append_left _ h1, h2⟩
    · rintro ⟨h1, h2⟩
      rcases mem_append.mp h1 with h1 | h1
      · exact ⟨h1, h2⟩
      · rw [mem_singleton.mp h1, hv] at h2; cases h2
  · rw [hd]; exact mem_touched hv h.dirty
  · rw [hc]; exact mem_touched hv h.clean
  · refine ⟨hf ▸ h.nodup.free, ?_, ?_⟩
    · rw [hc]; split
      · exact nodup_touchKey h.nodup.clean
      · exact h.nodup.clean
    · rw [hd]; split
      · exact nodup_touchKey h.nodup.dirty
      · exact h.nodup.dirty
  · rw [hi, hcd, hm, hbd]; exact h.same

theorem Paired.pairEntry_of_invalid (h : Paired m s₀ done s) (hv : (m k).valid = false) :
    Paired m s₀ (done ++ [k]) (CachePolicy.pairEntry m s k) := by
  have hp : CachePolicy.pairEntry m s k = { s with freeLru := touchKey k s.freeLru } := by
    unfold CachePolicy.pairEntry
    rw [if_neg (by simp [hv])]
  rw [hp]
  refine ⟨h.entryId, ?_, ?_, ?_, ?_, ?_, ?_, ?_, h.same⟩
  · intro j
    refine (h.status j).trans ?_
    by_cases hj : j = k
    · subst hj; simp [hv]
    · simp [hj]
  · intro b j hj
    obtain ⟨h1, h2⟩ := h.entry b j hj
    exact ⟨mem_append_left _ h1, h2⟩
  · intro j hj hjv
    rcases mem_append.mp hj with hj | hj
    · exact h.attached j hj hjv
    · rw [mem_singleton.mp hj, hv] at hjv; cases hjv
  · intro j
    rw [mem_touchKey, h.free j]
    constructor
    · rintro (rfl | ⟨h1, h2⟩)
      · exact ⟨by simp, hv⟩
      · exact ⟨mem_append_left _ h1, h2⟩
    · rintro ⟨h1, h2⟩
      rcases mem_append.mp h1 with h1 | h1
      · exact Or.inr ⟨h1, h2⟩
      · exact Or.inl (mem_singleton.mp h1)
  · intro b
    rw [exists_snoc_of_invalid hv]; exact h.dirty b
  · intro b
    rw [exists_snoc_of_invalid hv]; exact h.clean b
  · exact ⟨nodup_touchKey h.nodup.free, h.nodup.clean, h.nodup.dirty⟩

theorem Paired.pairEntry (h : Paired m s₀ done s) (k : Fin n) :
    Paired m s₀ (done ++ [k]) (CachePolicy.pairEntry m s k) := by
  cases hv : (m k).valid with
  | true => exact h.pairEntry_of_valid hv
  | false => exact h.pairEntry_of_invalid hv

end Pairing

section Constructor

variable (cfg : CacheConfig) (cacheData : Bytes) (blockMeta : Nat → BlockStatus)
  (backData : Bytes)

theorem new_paired : Paired (entryToBlockMap cfg blockMeta)
    (unpaired cfg.entriesCount cacheData blockMeta backData) (List.finRange cfg.entriesCount)
    (new cfg cacheData blockMeta backData) := by
  refine Machine.foldl_invariant ?_ (fun _ k _ h => h.pairEntry k) _
  refine ⟨fun _ => rfl, ?_, ?_, ?_, ?_, ?_, ?_, ⟨nodup_nil, nodup_nil, nodup_nil⟩,
    ⟨rfl, rfl, rfl, rfl⟩⟩
  · intro k; simp
  · intro b k h; cases h
  · intro k hk; cases hk
  · intro k; simp [unpaired]
  · intro b; simp [unpaired]
  · intro b; simp [unpaired]

theorem new_entryId (k : Fin cfg.entriesCount) :
    ((new cfg cacheData blockMeta backData).entries k).entryId
      = (newEntries cfg.entriesCount k).entryId :=
  (new_paired cfg cacheData blockMeta backData).entryId k

end Constructor

/-! ## A fresh cache -/

section Fresh

variable (cfg : CacheConfig) (cacheData backData : Bytes)

/-- The policy over a zeroed metadata store. -/
abbrev fresh : CacheState cfg.entriesCount := new cfg cacheData (fun _ => 0) backData

theorem zeroed_invalid (e : Nat) : (entryToBlockMap cfg (fun _ => 0) e).valid = false := by
  cases h : (entryToBlockMap cfg (fun _ => 0) e).valid with
  | false => rfl
  | true =>
    have hn := ((entryToBlockMap_loaded cfg (fun _ => 0)).sound e h).2.1.1
    exact absurd (by decide : (0 : UInt32) >>> 30 = 0) hn

theorem fresh_entry (b : Nat) : (fresh cfg cacheData backData).entry b = none := by
  cases h : (fresh cfg cacheData backData).entry b with
  | none => rfl
  | some k =>
    have hv := ((new_paired cfg cacheData (fun _ => 0) backData).entry b k h).2.1
    rw [zeroed_invalid] at hv; cases hv

theorem fresh_backData : (fresh cfg cacheData backData).backData = backData :=
  (new_paired cfg cacheData (fun _ => 0) backData).same.2.2.2

theorem fresh_shows (b : Nat) : Shows cfg (fresh cfg cacheData backData) b
    ⟨block cfg.blockSize 0 cacheData, unpromoted, block cfg.blockSize b backData, 0, false,
      false⟩ := by
  have hp := new_paired cfg cacheData (fun _ => 0) backData
  obtain ⟨_, _, hm, hb⟩ := hp.same
  refine ⟨by rw [hb]; rfl, by rw [hm]; rfl, ?_, ?_⟩
  · rw [hp.clean]; simp [zeroed_invalid]
  · rw [hp.dirty]; simp [zeroed_invalid]

/-- **A fresh cache satisfies the invariant of any contract that holds of uncached blocks.** -/
theorem fresh_inv (K : Contract cfg fun k => (newEntries cfg.entriesCount k).entryId)
    (hK : ∀ b, K.Idle (block cfg.blockSize b backData) none
      ⟨block cfg.blockSize 0 cacheData, unpromoted, block cfg.blockSize b backData, 0, false,
        false⟩) :
    Inv K (fun b => block cfg.blockSize b backData)
      (Serial.start (P := policy cfg) (fresh cfg cacheData backData)) := by
  have hp := new_paired cfg cacheData (fun _ => 0) backData
  refine ⟨hp.entryId, hp.nodup, fun _ => rfl, fun _ _ h => absurd h not_mem_nil, ?_, ?_, ?_⟩
  · intro b
    refine ⟨_, ?_, ⟨clipped_block _ _ _, clipped_block _ _ _⟩, fresh_shows cfg cacheData backData b,
      ?_, ?_⟩
    · exact (fresh_entry cfg cacheData backData b).symm ▸ hK b
    · intro e he
      rw [show (Serial.start (P := policy cfg) (fresh cfg cacheData backData)).pol.entry b = none
        from fresh_entry cfg cacheData backData b] at he
      cases he
    · exact congrFun hp.same.1 b
  · have hslot : slotOf (Serial.start (P := policy cfg) (fresh cfg cacheData backData))
        = fun _ => none := funext fun b => fresh_entry cfg cacheData backData b
    rw [hslot]
    refine Pool.all_free hp.nodup.free fun k => (hp.free k).mpr ⟨mem_finRange k, ?_⟩
    exact zeroed_invalid cfg k
  · intro e _
    refine (hp.status e).trans ?_
    rw [if_neg (by simp [zeroed_invalid])]
    show (newEntries cfg.entriesCount e).status = unpromoted
    rw [newEntries_eq]; rfl

end Fresh

/-! ## The metadata word -/

section Word

variable {st id : UInt32}

theorem toNat_shiftRight_30 (x : UInt32) : (x >>> 30).toNat = x.toNat / 2 ^ 30 := by
  rw [UInt32.toNat_shiftRight]
  exact Nat.shiftRight_eq_div_pow _ _

theorem toNat_and_idMask (x : UInt32) : (x &&& 0x3FFFFFFF).toNat = x.toNat % 2 ^ 30 := by
  rw [UInt32.toNat_and]
  exact Nat.and_two_pow_sub_one_eq_mod _ 30

theorem toNat_and_statusMask (x : UInt32) :
    (x &&& 0xC0000000).toNat = x.toNat / 2 ^ 30 * 2 ^ 30 := by
  have hmask : (0xC0000000 : UInt32).toNat = (2 ^ 2 - 1) * 2 ^ 30 := by decide
  rw [UInt32.toNat_and, hmask]
  apply Nat.eq_of_testBit_eq
  intro i
  rw [Nat.testBit_and, Nat.testBit_mul_two_pow, Nat.testBit_mul_two_pow,
    Nat.testBit_div_two_pow, Nat.testBit_two_pow_sub_one]
  by_cases hi : 30 ≤ i
  · rw [Nat.sub_add_cancel hi]
    by_cases hlt : i - 30 < 2
    · simp [hi, hlt]
    · have : x.toNat.testBit i = false :=
        Nat.testBit_lt_two_pow
          (Nat.lt_of_lt_of_le x.toNat_lt (Nat.pow_le_pow_right (by omega) (by omega)))
      simp [this]
  · simp [hi]

theorem toNat_or_of_lt {a : Nat} (hst : st.toNat = 2 ^ 30 * a) (h : id.toNat < 2 ^ 30) :
    (st ||| id).toNat = 2 ^ 30 * a + id.toNat := by
  rw [UInt32.toNat_or, hst, Nat.two_pow_add_eq_or_of_lt h]

theorem word_decode (hst : st = promotedUnflushed ∨ st = flushed) (hid : id ≤ maxBlockId) :
    (st ||| id) >>> 30 ≠ 0 ∧ ((st ||| id) &&& 0x3FFFFFFF).toNat = id.toNat % 2 ^ 30
      ∧ (st ||| id) &&& 0xC0000000 = st := by
  have hle : id.toNat ≤ 2 ^ 30 := UInt32.le_iff_toNat_le.mp hid
  obtain ⟨a, ha, hpos⟩ : ∃ a, st.toNat = 2 ^ 30 * a ∧ 0 < a := by
    rcases hst with rfl | rfl
    · exact ⟨1, by decide, by decide⟩
    · exact ⟨3, by decide, by decide⟩
  rcases Nat.lt_or_eq_of_le hle with hlt | heq
  · have hw := toNat_or_of_lt ha hlt
    refine ⟨?_, ?_, ?_⟩
    · intro h0
      have := congrArg UInt32.toNat h0
      rw [toNat_shiftRight_30, hw] at this
      simp only [UInt32.toNat_zero] at this
      omega
    · rw [toNat_and_idMask, hw]; omega
    · apply UInt32.toNat_inj.mp
      rw [toNat_and_statusMask, hw, ha]; omega
  · obtain rfl : id = maxBlockId := UInt32.toNat_inj.mp heq
    rcases hst with rfl | rfl <;> exact ⟨by decide, by decide, by decide⟩

def decodeWord (w : BlockStatus) : Option (UInt32 × BlockStatus) :=
  if w >>> 30 ≠ 0 then some (w &&& 0x3FFFFFFF, w &&& 0xC0000000) else none

theorem loadMeta_eq (blockMeta : Nat → BlockStatus) (m : Nat → EntryToBlock) (b : Nat) :
    loadMeta blockMeta m b = match decodeWord (blockMeta b) with
      | some (id, st) => update m id.toNat ⟨true, b, st⟩
      | none => m := by
  unfold loadMeta decodeWord
  dsimp only
  by_cases hcached : blockMeta b >>> 30 ≠ 0
  · rw [if_pos hcached, if_pos hcached]
  · rw [if_neg hcached, if_neg hcached]

theorem decodeWord_or (hst : st = promotedUnflushed ∨ st = flushed) (hid : id ≤ maxBlockId) :
    decodeWord (st ||| id) = some (if id = maxBlockId then 0 else id, st) := by
  obtain ⟨hcached, hnumber, hstatus⟩ := word_decode hst hid
  unfold decodeWord
  rw [if_pos hcached, hstatus]
  congr 2
  apply UInt32.toNat_inj.mp
  rw [hnumber]
  split
  · rename_i heq
    rw [heq]
    decide
  · rename_i hne
    have hle : id.toNat ≤ 2 ^ 30 := UInt32.le_iff_toNat_le.mp hid
    have hne : id.toNat ≠ 2 ^ 30 := fun h => hne (UInt32.toNat_inj.mp h)
    exact Nat.mod_eq_of_lt (by omega)

/--
**A word is read back as it was written**, for every number that the assertion of
`UpdateCacheMeta` admits but the last one; and no two of these words are the same.
-/
theorem metaWord_decodes_iff {n : Nat} (s : CacheState n) (b : Nat) (e : Fin n) (st : BlockStatus)
    (id : UInt32) (hst : st = promotedUnflushed ∨ st = flushed)
    (hid : (BlockOp.updateCacheMeta (some e) st id).assertion = true) :
    ((∀ m, loadMeta (sendUpdateCacheMeta b (some e) st id s).blockMeta m b
        = update m id.toNat ⟨true, b, st⟩) ↔ id ≠ maxBlockId)
    ∧ ∀ st' id', st' = promotedUnflushed ∨ st' = flushed →
        (BlockOp.updateCacheMeta (some e) st' id').assertion = true →
        id ≠ maxBlockId → id' ≠ maxBlockId →
        (sendUpdateCacheMeta b (some e) st' id' s).blockMeta b
          = (sendUpdateCacheMeta b (some e) st id s).blockMeta b →
        id' = id ∧ st' = st := by
  have hword : ∀ st id, (sendUpdateCacheMeta b (some e) st id s).blockMeta b = st ||| id :=
    fun st id => update_self ..
  have hid : id ≤ maxBlockId := of_decide_eq_true hid
  refine ⟨?_, fun st' id' hst' hid' hne hne' heq => ?_⟩
  · simp only [loadMeta_eq, hword, decodeWord_or hst hid]
    constructor
    · -- the last number is read as zero, so the array changes at the wrong place
      intro h hmax
      rw [if_pos hmax, hmax] at h
      have hvalid := congrArg EntryToBlock.valid (congrFun (h fun _ => ⟨false, 0, 0⟩) 0)
      rw [UInt32.toNat_zero, update_self, update_of_ne (by decide)] at hvalid
      exact Bool.noConfusion hvalid
    · intro hne m
      rw [if_neg hne]
  · have hid' : id' ≤ maxBlockId := of_decide_eq_true hid'
    have hdecoded := congrArg decodeWord heq
    rw [hword, hword, decodeWord_or hst' hid', decodeWord_or hst hid, if_neg hne, if_neg hne']
      at hdecoded
    exact Prod.mk.inj (Option.some.inj hdecoded)

/-- A small cache as the constructor leaves it. -/
def oneEntry : CacheState 1 := unpaired 1 (fun _ => 0) (fun _ => 0) fun _ => 0

theorem metaWord_decodes_five :
    (fun m => loadMeta (sendUpdateCacheMeta 3 (some 0) flushed 5 oneEntry).blockMeta m 3)
      = fun m => update m 5 ⟨true, 3, flushed⟩ :=
  funext ((metaWord_decodes_iff oneEntry 3 0 flushed 5 (.inr rfl) (by decide)).1.mpr (by decide))

/-- The word for entry `2 ^ 30` is the word for entry 0. -/
theorem metaWord_collides :
    (BlockOp.updateCacheMeta (some 0) flushed maxBlockId : BlockOp 1).assertion = true
    ∧ (sendUpdateCacheMeta 3 (some 0) flushed maxBlockId oneEntry).blockMeta 3
      = (sendUpdateCacheMeta 3 (some 0) flushed 0 oneEntry).blockMeta 3
    ∧ (sendUpdateCacheMeta 3 (some 0) promotedUnflushed maxBlockId oneEntry).blockMeta 3
      = (sendUpdateCacheMeta 3 (some 0) promotedUnflushed 0 oneEntry).blockMeta 3 := by
  decide

end Word

/-! ## Restart -/

/-- `table` says which block is cached, in which slot and with which status. -/
abbrev Table := Nat → Option (BlockStatus × UInt32)

/-- The metadata store holds the table, as a run of `UpdateCacheMeta` leaves it. -/
structure Persisted (cfg : CacheConfig) (table : Table) (blockMeta : Nat → BlockStatus) :
    Prop where
  inVolume : ∀ {b st id}, table b = some (st, id) → b < cfg.blocksCount
  status : ∀ {b st id}, table b = some (st, id) → st = promotedUnflushed ∨ st = flushed
  asserted : ∀ {b st id}, table b = some (st, id) → id ≤ maxBlockId
  below : ∀ {b st id}, table b = some (st, id) → id.toNat < cfg.cacheBlocksCount
  distinct : ∀ {b b' st st' id}, table b = some (st, id) → table b' = some (st', id) → b = b'
  cached : ∀ {b st id}, table b = some (st, id) → blockMeta b = st ||| id
  uncached : ∀ {b}, table b = none → blockMeta b = 0

/-- The policy has the mapping of the table. -/
structure Restored (cfg : CacheConfig) (table : Table) (s : CacheState cfg.entriesCount) :
    Prop where
  cached : ∀ b st id, table b = some (st, id) →
    ∃ k, s.entry b = some k ∧ (s.entries k).entryId = id ∧ (s.entries k).status = st
  uncached : ∀ b, table b = none → s.entry b = none
  dirty : ∀ b, b ∈ s.dirtyLru ↔ ∃ id, table b = some (promotedUnflushed, id)
  clean : ∀ b, b ∈ s.cleanLru ↔ ∃ id, table b = some (flushed, id)
  free : ∀ k, k ∈ s.freeLru ↔ ∀ b st, table b ≠ some (st, (s.entries k).entryId)
  /-- A READ goes to the slot the data was written to. -/
  read : ∀ (req : BlockRequest cfg.blockSize) st id, req.ioType = .read →
    table req.block = some (st, id) →
    ∃ d ops, (map cfg req s).1 = .readBlockFromCache id.toNat d :: ops

section Restart

variable {cfg : CacheConfig} {table : Table} {blockMeta : Nat → BlockStatus}

theorem Persisted.names (hp : Persisted cfg table blockMeta) {b e : Nat}
    (h : Names blockMeta b e) :
    ∃ st id, table b = some (st, id) ∧ id.toNat % 2 ^ 30 = e
      ∧ blockMeta b &&& 0xC0000000 = st := by
  cases ht : table b with
  | none =>
    have hn := h.1
    rw [hp.uncached ht] at hn
    exact absurd (by decide) hn
  | some x =>
    obtain ⟨st, id⟩ := x
    obtain ⟨_, h2, h3⟩ := word_decode (hp.status ht) (hp.asserted ht)
    rw [← hp.cached ht] at h2 h3
    exact ⟨st, id, rfl, h2.symm.trans h.2, h3⟩

theorem Persisted.names_of_table (hp : Persisted cfg table blockMeta) {b : Nat}
    {st : BlockStatus} {id : UInt32} (ht : table b = some (st, id)) :
    Names blockMeta b (id.toNat % 2 ^ 30) := by
  obtain ⟨h1, h2, _⟩ := word_decode (hp.status ht) (hp.asserted ht)
  rw [← hp.cached ht] at h1 h2
  exact ⟨h1, h2⟩

variable (cacheData backData : Bytes)

theorem Persisted.entry_new (hp : Persisted cfg table blockMeta) {b : Nat}
    {k : Fin cfg.entriesCount} (h : (new cfg cacheData blockMeta backData).entry b = some k) :
    ∃ st id, table b = some (st, id) ∧ id.toNat % 2 ^ 30 = k := by
  obtain ⟨_, hv, hb⟩ := (new_paired cfg cacheData blockMeta backData).entry b k h
  obtain ⟨_, hn, _⟩ := (entryToBlockMap_loaded cfg blockMeta).sound k hv
  rw [hb] at hn
  obtain ⟨st, id, ht, hk, _⟩ := hp.names hn
  exact ⟨st, id, ht, hk⟩

/-- The slot is its own mirror image. -/
def Mirrored (cfg : CacheConfig) (id : UInt32) : Prop :=
  id.toNat % 2 ^ 30 + id.toNat + 1 = cfg.entriesCount

variable (hp : Persisted cfg table blockMeta)
  (hmir : ∀ b st id, table b = some (st, id) → Mirrored cfg id)

include hp hmir

theorem Persisted.lookup {b : Nat} {st : BlockStatus} {id : UInt32}
    (ht : table b = some (st, id)) : ∃ k : Fin cfg.entriesCount,
      k = id.toNat % 2 ^ 30 ∧ (newEntries cfg.entriesCount k).entryId = id
        ∧ entryToBlockMap cfg blockMeta k = ⟨true, b, st⟩ := by
  have hm : id.toNat % 2 ^ 30 + id.toNat + 1 = cfg.entriesCount := hmir b st id ht
  have hl := entryToBlockMap_loaded cfg blockMeta
  refine ⟨⟨id.toNat % 2 ^ 30, by omega⟩, rfl, ?_, ?_⟩
  · apply UInt32.toNat_inj.mp
    rw [newEntries_toNat]
    dsimp only
    omega
  · have hv := hl.complete b (mem_range.mpr (hp.inVolume ht)) _ (hp.names_of_table ht)
    obtain ⟨_, hn, hst⟩ := hl.sound _ hv
    obtain ⟨st', id', ht', hid', hst'⟩ := hp.names hn
    have hm' : id'.toNat % 2 ^ 30 + id'.toNat + 1 = cfg.entriesCount := hmir _ st' id' ht'
    obtain rfl : id' = id := UInt32.toNat_inj.mp (by omega)
    have hb := hp.distinct ht' ht
    rw [hb] at ht'
    obtain rfl : st' = st := congrArg Prod.fst (Option.some.inj (ht'.symm.trans ht))
    generalize hx : entryToBlockMap cfg blockMeta (id'.toNat % 2 ^ 30) = x at *
    obtain ⟨xv, xb, xs⟩ := x
    dsimp only at hv hb hst hst'
    rw [hv, hb, hst, hst']

theorem Persisted.entry_of_table {b : Nat} {st : BlockStatus} {id : UInt32}
    (ht : table b = some (st, id)) : ∃ k,
      (new cfg cacheData blockMeta backData).entry b = some k
        ∧ ((new cfg cacheData blockMeta backData).entries k).entryId = id
        ∧ ((new cfg cacheData blockMeta backData).entries k).status = st := by
  have hpair := new_paired cfg cacheData blockMeta backData
  obtain ⟨k, hk, hid, hm⟩ := hp.lookup hmir ht
  refine ⟨k, ?_, ?_, ?_⟩
  · cases he : (new cfg cacheData blockMeta backData).entry b with
    | none =>
      have ha := hpair.attached k (mem_finRange k) (by rw [hm])
      rw [hm] at ha
      exact absurd he ha
    | some j =>
      obtain ⟨st', id', ht', hj⟩ := hp.entry_new cacheData backData he
      rw [ht] at ht'
      obtain ⟨rfl, rfl⟩ := Prod.mk.inj (Option.some.inj ht')
      rw [Fin.ext (hj.symm.trans hk.symm)]
  · rw [new_entryId]; exact hid
  · rw [hpair.status, if_pos ⟨mem_finRange k, by rw [hm]⟩, hm]

theorem Persisted.mem_list {b : Nat} {st : BlockStatus} :
    (∃ k ∈ List.finRange cfg.entriesCount, (entryToBlockMap cfg blockMeta k).valid = true
        ∧ (entryToBlockMap cfg blockMeta k).status = st
        ∧ (entryToBlockMap cfg blockMeta k).block = b)
      ↔ ∃ id, table b = some (st, id) := by
  constructor
  · rintro ⟨k, _, hv, hst, rfl⟩
    obtain ⟨_, hn, hs⟩ := (entryToBlockMap_loaded cfg blockMeta).sound k hv
    obtain ⟨st', id, ht, _, hst'⟩ := hp.names hn
    exact ⟨id, by rw [ht, ← hst', ← hs, hst]⟩
  · rintro ⟨id, ht⟩
    obtain ⟨k, _, _, hm⟩ := hp.lookup hmir ht
    exact ⟨k, mem_finRange k, by rw [hm], by rw [hm], by rw [hm]⟩

theorem Persisted.mem_free {k : Fin cfg.entriesCount} :
    (entryToBlockMap cfg blockMeta k).valid = false
      ↔ ∀ b st, table b ≠ some (st, (newEntries cfg.entriesCount k).entryId) := by
  constructor
  · intro hv b st ht
    obtain ⟨j, hj, hid, hm⟩ := hp.lookup hmir ht
    rw [newEntries_injective cfg hid] at hm
    rw [hm] at hv
    cases hv
  · intro h
    cases hv : (entryToBlockMap cfg blockMeta k).valid with
    | false => rfl
    | true =>
      obtain ⟨_, hn, _⟩ := (entryToBlockMap_loaded cfg blockMeta).sound k hv
      obtain ⟨st, id, ht, hk, _⟩ := hp.names hn
      obtain ⟨j, hj, hid, _⟩ := hp.lookup hmir ht
      obtain rfl : j = k := Fin.ext (hj.trans hk)
      exact absurd (hid ▸ ht) (h _ st)

end Restart

/--
**A restart restores the mapping exactly where every cached block sits in a slot
that is its own mirror image.**
-/
theorem restored_new_iff {cfg : CacheConfig} {table : Table} {blockMeta : Nat → BlockStatus}
    (cacheData backData : Bytes) (hp : Persisted cfg table blockMeta) :
    Restored cfg table (new cfg cacheData blockMeta backData)
      ↔ ∀ b st id, table b = some (st, id) → Mirrored cfg id := by
  have hpair := new_paired cfg cacheData blockMeta backData
  constructor
  · intro h b st id ht
    obtain ⟨k, hk, hid, _⟩ := h.cached b st id ht
    obtain ⟨st', id', ht', hk'⟩ := hp.entry_new cacheData backData hk
    rw [ht] at ht'
    obtain ⟨rfl, rfl⟩ := Prod.mk.inj (Option.some.inj ht')
    rw [new_entryId] at hid
    have hn := newEntries_toNat cfg k
    rw [hid] at hn
    unfold Mirrored
    omega
  · intro hmir
    refine ⟨fun b st id => hp.entry_of_table cacheData backData hmir, ?_, ?_, ?_, ?_, ?_⟩
    · intro b ht
      cases he : (new cfg cacheData blockMeta backData).entry b with
      | none => rfl
      | some k =>
        obtain ⟨st, id, ht', _⟩ := hp.entry_new cacheData backData he
        rw [ht] at ht'; cases ht'
    · intro b; rw [hpair.dirty]; exact hp.mem_list hmir
    · intro b; rw [hpair.clean]; exact hp.mem_list hmir
    · intro k
      rw [hpair.free, new_entryId, ← hp.mem_free hmir]
      exact ⟨fun h => h.2, fun h => ⟨mem_finRange k, h⟩⟩
    · intro req st id hio ht
      obtain ⟨k, hk, hid, _⟩ := hp.entry_of_table cacheData backData hmir ht
      rw [← hid]
      exact map_read_of_entry hio hk

/-- A cache of `slots + 1` slots over a volume of three blocks of two bytes each. -/
def smallCache (slots : Nat) (mode : CacheMode) : CacheConfig where
  totalSize := 4
  cacheSize := 2 * slots
  blockSize := 2
  timeoutNanoseconds := 1
  cacheMode := mode
  cacheDiscard := punchHole
  backDiscard := fun x => x
  blockSize_pos := by decide

/-- A request for all of block `b`, with `x` in every byte of its buffer. -/
def wholeRequest (ioType : IoType) (b : Nat) (x : UInt8) : BlockRequest 2 where
  ioType := ioType
  data := fun _ => x
  offset := 0
  size := 2
  block := b
  req := 0
  inBlock := by decide

/-- A small cache over a zeroed metadata store, an empty data file and an empty backend. -/
abbrev smallStart (slots : Nat) (mode : CacheMode) : Serial (policy (smallCache slots mode)) :=
  Serial.start (P := policy (smallCache slots mode))
    (fresh (smallCache slots mode) (fun _ => 0) (fun _ => 0))

/-- Block 0 is cached in slot `slot`, and nothing else is. -/
def onlyCached (slot : UInt32) : Table := fun b => if b = 0 then some (flushed, slot) else none

theorem onlyCached_eq {b : Nat} {st : BlockStatus} {slot id : UInt32}
    (h : onlyCached slot b = some (st, id)) : b = 0 ∧ st = flushed ∧ id = slot := by
  unfold onlyCached at h
  split at h
  · rename_i hb
    obtain ⟨rfl, rfl⟩ := Prod.mk.inj (Option.some.inj h)
    exact ⟨hb, rfl, rfl⟩
  · cases h

theorem onlyCached_persisted {slots : Nat} {mode : CacheMode} {slot : UInt32}
    {blockMeta : Nat → BlockStatus} (hasserted : slot ≤ maxBlockId)
    (hbelow : slot.toNat < (smallCache slots mode).cacheBlocksCount)
    (hmeta : blockMeta = fun b => if b = 0 then flushed ||| slot else 0) :
    Persisted (smallCache slots mode) (onlyCached slot) blockMeta := by
  subst hmeta
  refine ⟨?_, ?_, ?_, ?_, ?_, ?_, ?_⟩
  · intro b st id h
    rw [(onlyCached_eq h).1]; exact Nat.succ_pos _
  · intro b st id h
    exact Or.inr (onlyCached_eq h).2.1
  · intro b st id h
    rw [(onlyCached_eq h).2.2]; exact hasserted
  · intro b st id h
    rw [(onlyCached_eq h).2.2]; exact hbelow
  · intro b b' st st' id h h'
    rw [(onlyCached_eq h).1, (onlyCached_eq h').1]
  · intro b st id h
    obtain ⟨rfl, rfl, rfl⟩ := onlyCached_eq h
    rfl
  · intro b h
    unfold onlyCached at h
    split at h
    · cases h
    · rename_i hb; exact if_neg hb

/-- Of three slots the one in the middle is its own mirror image, and a restart restores it. -/
theorem restored_middle_slot :
    Restored (smallCache 2 .writeBack) (onlyCached 1)
      (new (smallCache 2 .writeBack) (fun _ => 0) (fun b => if b = 0 then flushed ||| 1 else 0)
        (fun _ => 0)) := by
  refine (restored_new_iff _ _ (onlyCached_persisted (by decide) (by decide) rfl)).mpr ?_
  intro b st id h
  rw [(onlyCached_eq h).2.2]
  unfold Mirrored
  decide

/-- With two slots the block that was cached in slot 0 comes back in slot 1. -/
theorem not_restored_two_slots :
    Persisted (smallCache 1 .writeBack) (onlyCached 0) (fun b => if b = 0 then flushed else 0)
      ∧ ¬ Restored (smallCache 1 .writeBack) (onlyCached 0)
        (new (smallCache 1 .writeBack) (fun _ => 0) (fun b => if b = 0 then flushed else 0)
          (fun _ => 0)) := by
  have hp : Persisted (smallCache 1 .writeBack) (onlyCached 0)
      (fun b => if b = 0 then flushed else 0) := onlyCached_persisted (by decide) (by decide) rfl
  refine ⟨hp, fun h => ?_⟩
  obtain ⟨k, hk, hid, _⟩ := h.cached 0 flushed 0 rfl
  obtain ⟨st, id, ht, hpos⟩ := hp.entry_new _ _ hk
  rw [(onlyCached_eq ht).2.2] at hpos
  have hn := newEntries_toNat (smallCache 1 .writeBack) k
  rw [← new_entryId, hid] at hn
  have hcount : (smallCache 1 .writeBack).entriesCount = 2 := by decide
  have h0 : (0 : UInt32).toNat = 0 := rfl
  omega

end HDCS.Proof
