import Mathlib.Data.List.Perm.Subperm
import HDCS.Core.SimpleBlockCacher

/-!
# What `SimpleBlockCacher` keeps

Two sentences say where a byte of the volume is. An object whose entry is dirty is in
the entry's slot, whole; every other byte is in the backend. `Coherent` is that,
together with the bookkeeping it rests on: no slot belongs to two entries or is free
and used at once, and the dirty entries are the ones in `lru_dirty`.

Evicting, flushing and reading keep it whatever they are called with. A write keeps it
if it begins at an object and the slot it goes to holds the rest of that object
(`Covered`); one that covers the whole object has no rest. What a read *returns* is
another matter: after a miss the entry gets a slot, but the bytes are not put there.
-/

namespace HDCS.SimpleBlockCacher

open Lib LruList Lib.Machine List

variable {objectSize : Nat} {s : SimpleBlockCacher}

/-! ## Slots -/

def Dirty (s : SimpleBlockCacher) (c : Nat) : Prop := (s.metaTbl c).ifClean = false

def freeSlots (s : SimpleBlockCacher) : List Int := s.freeNodes.filter (0 ≤ ·)

structure Slots (s : SimpleBlockCacher) : Prop where
  index_ge : ∀ c, -1 ≤ (s.metaTbl c).onDiskIndex
  index_inj : ∀ c c', 0 ≤ (s.metaTbl c).onDiskIndex →
    (s.metaTbl c).onDiskIndex = (s.metaTbl c').onDiskIndex → c = c'
  free_nodup : s.freeSlots.Nodup
  free_unused : ∀ b ∈ s.freeSlots, ∀ c, (s.metaTbl c).onDiskIndex ≠ b

structure Taken (s : SimpleBlockCacher) (b : Int) : Prop where
  nonneg : 0 ≤ b
  not_free : b ∉ s.freeSlots
  unused : ∀ c, (s.metaTbl c).onDiskIndex ≠ b

theorem mem_freeSlots {b : Int} : b ∈ s.freeSlots ↔ b ∈ s.freeNodes ∧ 0 ≤ b := by
  unfold freeSlots
  rw [mem_filter, decide_eq_true_eq]

theorem freeSlots_returnToFree {b : Int} :
    (s.returnToFree b).freeSlots = s.freeSlots ++ if 0 ≤ b then [b] else [] := by
  unfold freeSlots returnToFree
  rw [filter_append, filter_cons]
  simp only [decide_eq_true_eq, filter_nil]

theorem Slots.new {n : Nat} {garbage : Int} {device backend : Bytes} :
    Slots (new n garbage device backend) := by
  refine ⟨fun _ => Int.le_refl _, fun _ _ (h : (0 : Int) ≤ -1) _ => by omega, ?_, ?_⟩
  · refine List.Nodup.filter _ ?_
    unfold SimpleBlockCacher.new initFree
    dsimp only
    split
    · exact nodup_singleton _
    · exact nodup_range.map fun _ _ h => Int.ofNat.inj h
  · intro b hb c heq
    have hb0 := (mem_freeSlots.mp hb).2
    change (-1 : Int) = b at heq
    omega

theorem freeLookup_eq (s : SimpleBlockCacher) :
    s.freeNodes = [] ∧ s.freeLookup = (-1, s)
      ∨ ∃ b rest, s.freeNodes = b :: rest ∧ s.freeLookup = (b, { s with freeNodes := rest }) := by
  unfold freeLookup
  cases hf : s.freeNodes with
  | nil => exact .inl ⟨rfl, rfl⟩
  | cons b rest => exact .inr ⟨b, rest, rfl, rfl⟩

theorem Slots.freeLookup (h : Slots s) : Slots s.freeLookup.2 := by
  rcases freeLookup_eq s with ⟨_, heq⟩ | ⟨b, rest, hnodes, heq⟩
  · rw [heq]
    exact h
  · rw [heq]
    have hsub : (rest.filter (0 ≤ ·)).Sublist s.freeSlots := by
      unfold freeSlots
      rw [hnodes]
      exact (sublist_cons_self b rest).filter _
    exact ⟨h.index_ge, h.index_inj, h.free_nodup.sublist hsub,
      fun x hx => h.free_unused x (hsub.subset hx)⟩

theorem Slots.taken (h : Slots s) (hb : 0 ≤ s.freeLookup.1) :
    Taken s.freeLookup.2 s.freeLookup.1 := by
  rcases freeLookup_eq s with ⟨_, heq⟩ | ⟨b, rest, hnodes, heq⟩
  · rw [heq] at hb
    change (0 : Int) ≤ -1 at hb
    omega
  · rw [heq] at hb ⊢
    have hfree : s.freeSlots = b :: rest.filter (0 ≤ ·) := by
      unfold freeSlots
      rw [hnodes, filter_cons_of_pos (by simpa using hb)]
    have hnodup := h.free_nodup
    rw [hfree, nodup_cons] at hnodup
    exact ⟨hb, hnodup.1, h.free_unused b (hfree ▸ mem_cons_self)⟩

section SetBlock

variable {c : Nat} {entry : Block}

@[simp] theorem setBlock_self : (s.setBlock c entry).metaTbl c = entry :=
  Function.update_self ..

theorem setBlock_of_ne {k : Nat} (h : k ≠ c) : (s.setBlock c entry).metaTbl k = s.metaTbl k :=
  Function.update_of_ne h ..

theorem Slots.setBlock (h : Slots s) (hindex : entry.onDiskIndex = (s.metaTbl c).onDiskIndex) :
    Slots (s.setBlock c entry) := by
  have hall : ∀ k, ((s.setBlock c entry).metaTbl k).onDiskIndex = (s.metaTbl k).onDiskIndex := by
    intro k
    by_cases hk : k = c
    · rw [hk, setBlock_self, hindex]
    · rw [setBlock_of_ne hk]
  refine ⟨fun k => ?_, fun k k' => ?_, h.free_nodup, fun b hb k => ?_⟩
  · rw [hall]; exact h.index_ge k
  · rw [hall, hall]; exact h.index_inj k k'
  · rw [hall]; exact h.free_unused b hb k

/-- **A slot changes hands**: an entry gives up its slot for another one, or for none. -/
theorem Slots.exchange (h : Slots s)
    (hnew : entry.onDiskIndex = -1 ∨ Taken s entry.onDiskIndex) :
    Slots ((s.returnToFree (s.metaTbl c).onDiskIndex).setBlock c entry) := by
  have hfree : ((s.returnToFree (s.metaTbl c).onDiskIndex).setBlock c entry).freeSlots
      = s.freeSlots ++ if 0 ≤ (s.metaTbl c).onDiskIndex then [(s.metaTbl c).onDiskIndex] else [] :=
    freeSlots_returnToFree
  have hother : ∀ {k}, k ≠ c → ((s.returnToFree (s.metaTbl c).onDiskIndex).setBlock c
      entry).metaTbl k = s.metaTbl k := fun hk => setBlock_of_ne hk
  have hunused : ∀ k, 0 ≤ entry.onDiskIndex → (s.metaTbl k).onDiskIndex ≠ entry.onDiskIndex := by
    rcases hnew with heq | htaken
    · intro k hpos
      omega
    · exact fun k _ => htaken.unused k
  refine ⟨fun k => ?_, fun k k' hpos heq => ?_, ?_, fun b hb k => ?_⟩
  · by_cases hk : k = c
    · rw [hk, setBlock_self]
      rcases hnew with heq | htaken
      · omega
      · exact Int.le_trans (by decide) htaken.nonneg
    · rw [hother hk]
      exact h.index_ge k
  · by_cases hk : k = c <;> by_cases hk' : k' = c
    · rw [hk, hk']
    · rw [hk, setBlock_self] at hpos heq
      rw [hother hk'] at heq
      exact absurd heq.symm (hunused k' hpos)
    · rw [hother hk] at hpos heq
      rw [hk', setBlock_self] at heq
      exact absurd heq (hunused k (heq ▸ hpos))
    · rw [hother hk] at hpos heq
      rw [hother hk'] at heq
      exact h.index_inj k k' hpos heq
  · rw [hfree]
    refine h.free_nodup.append ?_ ?_
    · split
      · exact nodup_singleton _
      · exact nodup_nil
    · intro b hb hb'
      split at hb'
      · rw [mem_singleton] at hb'
        exact h.free_unused b hb c hb'.symm
      · exact absurd hb' not_mem_nil
  · rw [hfree, mem_append] at hb
    by_cases hk : k = c
    · rw [hk, setBlock_self]
      rintro rfl
      rcases hb with hb | hb
      · rcases hnew with heq | htaken
        · have := (mem_freeSlots.mp hb).2
          omega
        · exact htaken.not_free hb
      · split at hb
        · rename_i hpos
          rw [mem_singleton] at hb
          exact hunused c (hb ▸ hpos) hb.symm
        · exact not_mem_nil hb
    · rw [hother hk]
      rcases hb with hb | hb
      · exact h.free_unused b hb k
      · split at hb
        · rename_i hpos
          rw [mem_singleton] at hb
          rw [hb]
          exact fun heq => hk (h.index_inj k c (heq ▸ hpos) heq)
        · exact absurd hb not_mem_nil

theorem Slots.assign (h : Slots s) (hnone : (s.metaTbl c).onDiskIndex = -1)
    (hnew : Taken s entry.onDiskIndex) : Slots (s.setBlock c entry) := by
  have hex := h.exchange (c := c) (.inr hnew)
  have hfree : ((s.returnToFree (s.metaTbl c).onDiskIndex).setBlock c entry).freeSlots
      = (s.setBlock c entry).freeSlots := by
    refine freeSlots_returnToFree.trans ?_
    rw [hnone, if_neg (by decide), append_nil]
    rfl
  refine ⟨hex.index_ge, hex.index_inj, hfree ▸ hex.free_nodup, fun b hb => ?_⟩
  exact hex.free_unused b (hfree ▸ hb)

end SetBlock

theorem Slots.congr {s' : SimpleBlockCacher} (h : Slots s) (hmeta : s'.metaTbl = s.metaTbl)
    (hfree : s'.freeNodes = s.freeNodes) : Slots s' := by
  have hslots : s'.freeSlots = s.freeSlots := by
    unfold freeSlots
    rw [hfree]
  refine ⟨?_, ?_, hslots ▸ h.free_nodup, ?_⟩
  · rw [hmeta]; exact h.index_ge
  · rw [hmeta]; exact h.index_inj
  · rw [hmeta, hslots]; exact h.free_unused

/-! ## The invariant -/

variable {w : Bytes} {ts : Nat} {flying : List AioBackendWrite} {s' : SimpleBlockCacher}

structure Holds (objectSize : Nat) (w : Bytes) (device : Bytes) (c : Nat) (entry : Block) :
    Prop where
  index : 0 ≤ entry.onDiskIndex
  offset : entry.onVolumeOffset = c
  aligned : objectSize ∣ c
  slot : ∀ i < objectSize, device (entry.onDiskIndex.toNat * objectSize + i) = w (c + i)

structure Sound (objectSize : Nat) (w : Bytes) (ts : Nat) (device : Bytes) (c : Nat)
    (entry : Block) : Prop where
  tsWrite_le : entry.tsWrite ≤ ts
  written : entry.ifClean = false ∨ 0 < entry.tsWrite → Holds objectSize w device c entry

structure Flies (objectSize : Nat) (w : Bytes) (ts : Nat) (s : SimpleBlockCacher)
    (aio : AioBackendWrite) : Prop where
  dirty : Dirty s aio.cacheEntry
  offset : aio.offset = aio.cacheEntry
  data : ∀ i < objectSize, aio.data i = w (aio.offset + i)
  ts_le : ts ≤ aio.tsWrite

/-- **Where the bytes of the volume `w` are**, while the writes `flying` are on their way. -/
structure Coherent (objectSize : Nat) (w : Bytes) (ts : Nat) (flying : List AioBackendWrite)
    (s : SimpleBlockCacher) : Prop where
  slots : Slots s
  sound : ∀ c, Sound objectSize w ts s.device c (s.metaTbl c)
  backend_eq : ∀ x, ¬ Dirty s (x / objectSize * objectSize) → s.backend x = w x
  lruDirty_nodup : s.lruDirty.Nodup
  mem_lruDirty : ∀ c, c ∈ s.lruDirty ↔ Dirty s c
  inflight : ∀ c, (s.metaTbl c).inflightFlush = true ↔ c ∈ flying.map AioBackendWrite.cacheEntry
  flying_nodup : (flying.map AioBackendWrite.cacheEntry).Nodup
  flies : ∀ aio ∈ flying, Flies objectSize w ts s aio

theorem Coherent.new {n : Nat} {garbage : Int} {device backend : Bytes} :
    Coherent objectSize backend ts [] (new n garbage device backend) where
  slots := .new
  sound _ := ⟨Nat.zero_le _, fun h => h.elim Bool.noConfusion (absurd · (Nat.lt_irrefl 0))⟩
  backend_eq _ _ := rfl
  lruDirty_nodup := nodup_nil
  mem_lruDirty _ := ⟨fun h => absurd h not_mem_nil, fun h => absurd h Bool.noConfusion⟩
  inflight _ := ⟨fun h => absurd h Bool.noConfusion, fun h => absurd h not_mem_nil⟩
  flying_nodup := nodup_nil
  flies _ h := absurd h not_mem_nil

theorem Coherent.holds (h : Coherent objectSize w ts flying s) {c : Nat} (hd : Dirty s c) :
    Holds objectSize w s.device c (s.metaTbl c) :=
  (h.sound c).written (.inl hd)

theorem Coherent.of_index (h : Coherent objectSize w ts flying s) {c : Nat}
    (hindex : (s.metaTbl c).onDiskIndex = -1) :
    (s.metaTbl c).ifClean = true ∧ (s.metaTbl c).tsWrite = 0 := by
  have hnot : ¬ ((s.metaTbl c).ifClean = false ∨ 0 < (s.metaTbl c).tsWrite) := by
    intro hwritten
    have hpos := ((h.sound c).written hwritten).index
    omega
  rw [not_or, Bool.not_eq_false] at hnot
  exact ⟨hnot.1, Nat.eq_zero_of_not_pos hnot.2⟩

theorem Coherent.mono {ts' : Nat} (h : Coherent objectSize w ts [] s) (hts : ts ≤ ts') :
    Coherent objectSize w ts' [] s :=
  { h with
    sound := fun c => ⟨Nat.le_trans (h.sound c).tsWrite_le hts, (h.sound c).written⟩
    flies := fun _ haio => absurd haio not_mem_nil }

structure Quiet (entry entry' : Block) : Prop where
  clean : entry.ifClean = true
  clean' : entry'.ifClean = true
  tsWrite' : entry'.tsWrite = 0
  inflight : entry'.inflightFlush = entry.inflightFlush

/-- **Nothing happens to the bytes where only clean entries change.** -/
theorem Coherent.quiet (h : Coherent objectSize w ts flying s) (hslots : Slots s')
    (hdevice : s'.device = s.device) (hbackend : s'.backend = s.backend)
    (hnodup : s'.lruDirty.Nodup) (hlru : ∀ c, c ∈ s'.lruDirty ↔ c ∈ s.lruDirty)
    (hentry : ∀ c, s'.metaTbl c = s.metaTbl c ∨ Quiet (s.metaTbl c) (s'.metaTbl c)) :
    Coherent objectSize w ts flying s' := by
  have hdirty : ∀ c, Dirty s' c ↔ Dirty s c := by
    intro c
    unfold Dirty
    rcases hentry c with heq | hq
    · rw [heq]
    · rw [hq.clean, hq.clean']
  refine ⟨hslots, fun c => ?_, fun x hx => ?_, hnodup, fun c => ?_, fun c => ?_,
    h.flying_nodup, fun aio haio => ?_⟩
  · rw [hdevice]
    rcases hentry c with heq | hq
    · rw [heq]
      exact h.sound c
    · refine ⟨hq.tsWrite' ▸ Nat.zero_le ts, fun hwritten => ?_⟩
      rw [hq.clean', hq.tsWrite'] at hwritten
      exact absurd hwritten (by decide)
  · rw [hbackend]
    exact h.backend_eq x fun hd => hx ((hdirty _).mpr hd)
  · rw [hlru, h.mem_lruDirty, hdirty]
  · rcases hentry c with heq | hq
    · rw [heq]
      exact h.inflight c
    · rw [hq.inflight]
      exact h.inflight c
  · have hf := h.flies aio haio
    exact ⟨(hdirty _).mpr hf.dirty, hf.offset, hf.data, hf.ts_le⟩

/-! ## Evicting -/

@[simp] theorem freeLookup_metaTbl : s.freeLookup.2.metaTbl = s.metaTbl := by
  unfold freeLookup
  split <;> rfl

@[simp] theorem freeLookup_device : s.freeLookup.2.device = s.device := by
  unfold freeLookup
  split <;> rfl

@[simp] theorem freeLookup_backend : s.freeLookup.2.backend = s.backend := by
  unfold freeLookup
  split <;> rfl

@[simp] theorem freeLookup_lruDirty : s.freeLookup.2.lruDirty = s.lruDirty := by
  unfold freeLookup
  split <;> rfl

theorem Coherent.freeLookup (h : Coherent objectSize w ts flying s) :
    Coherent objectSize w ts flying s.freeLookup.2 := by
  refine h.quiet h.slots.freeLookup freeLookup_device freeLookup_backend ?_ ?_ ?_
  · rw [freeLookup_lruDirty]
    exact h.lruDirty_nodup
  · intro c
    rw [freeLookup_lruDirty]
  · intro c
    exact .inl (by rw [freeLookup_metaTbl])

structure Untouched (locked : Option Nat) (s s' : SimpleBlockCacher) : Prop where
  device : s'.device = s.device
  backend : s'.backend = s.backend
  entry : ∀ c, locked = some c → s'.metaTbl c = s.metaTbl c

theorem Untouched.trans {locked : Option Nat} {s s' s'' : SimpleBlockCacher}
    (h : Untouched locked s s') (h' : Untouched locked s' s'') : Untouched locked s s'' :=
  ⟨h'.device.trans h.device, h'.backend.trans h.backend,
    fun c hc => (h'.entry c hc).trans (h.entry c hc)⟩

theorem untouched_doEvict (locked : Option Nat) (now : Nat) (s : SimpleBlockCacher) (c : Nat) :
    Untouched locked s (doEvict locked now s c) := by
  unfold SimpleBlockCacher.doEvict
  dsimp only
  split_ifs with hlocked hunset hdirty hflight
  · exact ⟨rfl, rfl, fun _ _ => rfl⟩
  · exact ⟨rfl, rfl, fun _ _ => rfl⟩
  · exact ⟨rfl, rfl, fun _ _ => rfl⟩
  · exact ⟨rfl, rfl, fun _ _ => rfl⟩
  · exact ⟨rfl, rfl, fun k hk => setBlock_of_ne fun hkc => hlocked (hkc ▸ hk)⟩

theorem untouched_evictAllClean (locked : Option Nat) (now : Nat) (s : SimpleBlockCacher) :
    Untouched locked s (s.evictAllClean locked now) := by
  refine foldl_invariant (I := fun _ t => Untouched locked s t) ⟨rfl, rfl, fun _ _ => rfl⟩ ?_ _
  intro done c t hu
  exact hu.trans (untouched_doEvict locked now t c)

theorem Coherent.doEvict (locked : Option Nat) (now c : Nat)
    (h : Coherent objectSize w ts flying s) :
    Coherent objectSize w ts flying (doEvict locked now s c) := by
  unfold SimpleBlockCacher.doEvict
  dsimp only
  split_ifs with hlocked hunset hdirty hflight
  · exact h
  · exact h
  · exact h
  · exact h
  · have hclean := (Bool.not_eq_false _).mp hdirty
    refine h.quiet ?_ rfl rfl h.lruDirty_nodup (fun _ => Iff.rfl) fun k => ?_
    · have hex : Slots ((s.returnToFree (s.metaTbl c).onDiskIndex).setBlock c (.reset now)) :=
        h.slots.exchange (.inl rfl)
      exact hex.congr rfl rfl
    · by_cases hk : k = c
      · refine .inr ⟨hk ▸ hclean, ?_, ?_, ?_⟩
        · rw [hk]; exact congrArg Block.ifClean setBlock_self
        · rw [hk]; exact congrArg Block.tsWrite setBlock_self
        · rw [hk, (Bool.not_eq_true _).mp hflight]
          exact congrArg Block.inflightFlush setBlock_self
      · exact .inl (setBlock_of_ne hk)

theorem Coherent.evictAllClean (locked : Option Nat) (now : Nat)
    (h : Coherent objectSize w ts flying s) :
    Coherent objectSize w ts flying (s.evictAllClean locked now) :=
  foldl_invariant (I := fun _ t => Coherent objectSize w ts flying t) h
    (fun _ c _ ht => ht.doEvict locked now c) _

/-! ## Writing -/

variable {op : Op} {buf : Bytes} {reqTs now : Nat}

structure Chosen (objectSize : Nat) (w : Bytes) (ts : Nat) (s : SimpleBlockCacher) (c : Nat)
    (choice : SimpleBlockCacher × Option (Int × Bool)) : Prop where
  coherent : Coherent objectSize w ts [] choice.1
  device : choice.1.device = s.device
  entry : choice.1.metaTbl c = s.metaTbl c
  around : choice.2 = none → (choice.1.metaTbl c).onDiskIndex = -1
  append : ∀ b, choice.2 = some (b, true) → Taken choice.1 b
  inPlace : ∀ b, choice.2 = some (b, false) → b = (choice.1.metaTbl c).onDiskIndex ∧ 0 ≤ b

theorem Coherent.blockFor (h : Coherent objectSize w ts [] s) (c length now : Nat) :
    Chosen objectSize w ts s c (s.blockFor objectSize c length now) := by
  have hindex : ∀ {t : SimpleBlockCacher}, Slots t → (t.metaTbl c).onDiskIndex ≠ -1 →
      0 ≤ (t.metaTbl c).onDiskIndex := by
    intro t ht hne
    have := ht.index_ge c
    omega
  have hfree := h.freeLookup
  have hev := hfree.evictAllClean (some c) now
  have hun := untouched_evictAllClean (some c) now s.freeLookup.2
  have hentry : (s.freeLookup.2.evictAllClean (some c) now).freeLookup.2.metaTbl c
      = s.metaTbl c := by
    rw [freeLookup_metaTbl, hun.entry c rfl, freeLookup_metaTbl]
  have hdevice : (s.freeLookup.2.evictAllClean (some c) now).freeLookup.2.device = s.device := by
    rw [freeLookup_device, hun.device, freeLookup_device]
  unfold SimpleBlockCacher.blockFor
  dsimp only
  split
  · -- in place
    rename_i hplace
    refine ⟨h, rfl, rfl, nofun, by rintro _ ⟨⟩, ?_⟩
    rintro b ⟨⟩
    exact ⟨rfl, hindex h.slots hplace.1⟩
  · split
    · -- a free slot
      rename_i hpos
      refine ⟨hfree, freeLookup_device, by rw [freeLookup_metaTbl], nofun, ?_, by rintro _ ⟨⟩⟩
      rintro b ⟨⟩
      exact h.slots.taken hpos
    · split
      · -- a slot that was evicted for it
        rename_i hpos
        refine ⟨hev.freeLookup, hdevice, hentry, nofun, ?_, by rintro _ ⟨⟩⟩
        rintro b ⟨⟩
        exact hev.slots.taken hpos
      · split
        · rename_i hnone
          exact ⟨hev.freeLookup, hdevice, hentry, fun _ => hnone, nofun, nofun⟩
        · rename_i hsome
          refine ⟨hev.freeLookup, hdevice, hentry, nofun, by rintro _ ⟨⟩, ?_⟩
          rintro b ⟨⟩
          exact ⟨rfl, hindex hev.freeLookup.slots hsome⟩

theorem memcpy_slot_of_ne {b b' : Int} (hb : 0 ≤ b) (hb' : 0 ≤ b') (hne : b' ≠ b)
    {device src : Bytes} {length soff i : Nat} (hlen : length ≤ objectSize) (hi : i < objectSize) :
    memcpy device (b.toNat * objectSize) src soff length (b'.toNat * objectSize + i)
      = device (b'.toNat * objectSize + i) := by
  refine memcpy_of_not_mem ?_
  rintro ⟨h₁, h₂⟩
  have hslot : b'.toNat ≠ b.toNat := by omega
  have hlt : b'.toNat * objectSize + i - b.toNat * objectSize < objectSize := by omega
  exact block_addr_ne hslot hi hlt (by omega)

theorem memcpy_object_of_ne {c k : Nat} (hc : objectSize ∣ c) (hk : objectSize ∣ k) (hne : k ≠ c)
    {src : Bytes} {length soff i : Nat} (hlen : length ≤ objectSize) (hi : i < objectSize) :
    memcpy w c src soff length (k + i) = w (k + i) := by
  obtain ⟨c, rfl⟩ := hc
  obtain ⟨k, rfl⟩ := hk
  have hobject : k ≠ c := fun heq => hne (heq ▸ rfl)
  refine memcpy_of_not_mem ?_
  rintro ⟨h₁, h₂⟩
  have hlt : objectSize * k + i - objectSize * c < objectSize := by omega
  refine block_addr_ne hobject hi hlt ?_
  rw [Nat.mul_comm k, Nat.mul_comm c]
  omega

theorem memcpy_of_object_ne (hpos : 0 < objectSize) {c x : Nat} (hc : objectSize ∣ c)
    (hne : x / objectSize * objectSize ≠ c) {src : Bytes} {length soff : Nat}
    (hlen : length ≤ objectSize) : memcpy w c src soff length x = w x := by
  have hx : memcpy w c src soff length (x / objectSize * objectSize + x % objectSize)
      = w (x / objectSize * objectSize + x % objectSize) :=
    memcpy_object_of_ne hc (Nat.dvd_mul_left ..) hne hlen (Nat.mod_lt x hpos)
  rwa [Nat.div_add_mod'] at hx

theorem Coherent.around (h : Coherent objectSize w ts [] s)
    (haligned : objectSize ∣ op.offset) (hlen : op.length ≤ objectSize)
    (hnone : (s.metaTbl op.offset).onDiskIndex = -1) :
    Coherent objectSize (memcpy w op.offset buf op.dataOff op.length) ts []
      { s with backend := memcpy s.backend op.offset buf op.dataOff op.length } := by
  refine ⟨h.slots.congr rfl rfl, fun c => ⟨(h.sound c).tsWrite_le, fun hd => ?_⟩, fun x hx => ?_,
    h.lruDirty_nodup, h.mem_lruDirty, h.inflight, h.flying_nodup,
    fun _ haio => absurd haio not_mem_nil⟩
  · have hold := (h.sound c).written hd
    have hne : c ≠ op.offset := by
      rintro rfl
      have := hold.index
      omega
    refine ⟨hold.index, hold.offset, hold.aligned, fun i hi => ?_⟩
    rw [memcpy_object_of_ne haligned hold.aligned hne hlen hi]
    exact hold.slot i hi
  · have hbackend : s.backend x = w x := h.backend_eq x hx
    dsimp only
    by_cases hin : op.offset ≤ x ∧ x < op.offset + op.length
    · rw [memcpy_of_mem hin.1 hin.2, memcpy_of_mem hin.1 hin.2]
    · rw [memcpy_of_not_mem hin, memcpy_of_not_mem hin, hbackend]

def Available (s : SimpleBlockCacher) (c : Nat) (b : Int) (append : Bool) : Prop :=
  if append then Taken s b else b = (s.metaTbl c).onDiskIndex ∧ 0 ≤ b

theorem Available.nonneg {c : Nat} {b : Int} {append : Bool} (h : Available s c b append) :
    0 ≤ b := by
  cases append with
  | true => exact Taken.nonneg h
  | false => exact h.2

theorem Available.ne {c k : Nat} {b : Int} {append : Bool} (h : Available s c b append)
    (hslots : Slots s) (hk : k ≠ c) (hindex : 0 ≤ (s.metaTbl k).onDiskIndex) :
    (s.metaTbl k).onDiskIndex ≠ b := by
  cases append with
  | true => exact Taken.unused h k
  | false =>
    intro heq
    exact hk (hslots.index_inj k c hindex (heq.trans h.1))

theorem Available.congr {c : Nat} {b : Int} {append : Bool} (h : Available s c b append)
    (hmeta : s'.metaTbl = s.metaTbl) (hfree : s'.freeNodes = s.freeNodes) :
    Available s' c b append := by
  have hslots : s'.freeSlots = s.freeSlots := by
    unfold freeSlots
    rw [hfree]
  cases append with
  | true => exact ⟨Taken.nonneg h, hslots ▸ Taken.not_free h, hmeta ▸ Taken.unused h⟩
  | false => exact ⟨hmeta ▸ h.1, h.2⟩

theorem Available.slots {c : Nat} {entry : Block} {append : Bool}
    (h : Available s c entry.onDiskIndex append) (hslots : Slots s) :
    Slots ((if append then s.returnToFree (s.metaTbl c).onDiskIndex else s).setBlock c entry) := by
  cases append with
  | true => exact hslots.exchange (.inr h)
  | false => exact hslots.setBlock h.1

def written (entry : Block) (c : Nat) (b : Int) (reqTs : Nat) : Block :=
  { entry with tsWrite := reqTs, onDiskIndex := b, onVolumeOffset := c, ifClean := false }

structure Updated (s : SimpleBlockCacher) (c : Nat) (b : Int) (reqTs : Nat)
    (s' : SimpleBlockCacher) : Prop where
  slots : Slots s'
  self : s'.metaTbl c = written (s.metaTbl c) c b reqTs
  other : ∀ k, k ≠ c → s'.metaTbl k = s.metaTbl k
  device : s'.device = s.device
  backend : s'.backend = s.backend
  lruDirty : s'.lruDirty = touchKey c s.lruDirty

theorem updateMeta_self {c : Nat} (b : Int) (append : Bool) (hts : (s.metaTbl c).tsWrite ≤ reqTs) :
    (s.updateMeta c b append reqTs).metaTbl c = written (s.metaTbl c) c b reqTs
      ∧ (s.updateMeta c b append reqTs).device = s.device := by
  unfold updateMeta
  dsimp only
  rw [if_neg (Nat.not_lt.mpr hts)]
  cases append with
  | true | false => exact ⟨setBlock_self, rfl⟩

theorem updateMeta_spec {c : Nat} {b : Int} {append : Bool} (hslots : Slots s)
    (hb : Available s c b append) (hts : (s.metaTbl c).tsWrite ≤ reqTs) :
    Updated s c b reqTs (s.updateMeta c b append reqTs) := by
  have hnew : Available s c (written (s.metaTbl c) c b reqTs).onDiskIndex append := hb
  obtain ⟨hself, hdevice⟩ := updateMeta_self b append hts
  unfold updateMeta at hself hdevice ⊢
  dsimp only at hself hdevice ⊢
  rw [if_neg (Nat.not_lt.mpr hts)] at hself hdevice ⊢
  refine ⟨(hnew.slots hslots).congr ?_ ?_, hself, fun k hk => ?_, hdevice, ?_, ?_⟩
  all_goals cases append
  any_goals rfl
  · exact setBlock_of_ne hk
  · exact setBlock_of_ne hk

theorem slot_memcpy {b c length soff : Nat} {device src : Bytes}
    (hrest : ∀ i < objectSize, length ≤ i → device (b * objectSize + i) = w (c + i)) {i : Nat}
    (hi : i < objectSize) :
    memcpy device (b * objectSize) src soff length (b * objectSize + i)
      = memcpy w c src soff length (c + i) := by
  by_cases hin : i < length
  · rw [memcpy_of_mem (by omega) (by omega), memcpy_of_mem (by omega) (by omega),
      Nat.add_sub_cancel_left, Nat.add_sub_cancel_left]
  · rw [memcpy_of_not_mem (by omega), memcpy_of_not_mem (by omega)]
    exact hrest i hi (by omega)

/-- **Bytes that go to a slot**: the entry is dirty then, so its slot has to hold the object. -/
theorem Coherent.stored (hpos : 0 < objectSize) {b : Int} {append : Bool}
    (h : Coherent objectSize w ts [] s) (hts : ts ≤ reqTs) (haligned : objectSize ∣ op.offset)
    (hlen : op.length ≤ objectSize) (hb : Available s op.offset b append)
    (hrest : ∀ i < objectSize, op.length ≤ i →
      s.device (b.toNat * objectSize + i) = w (op.offset + i)) :
    Coherent objectSize (memcpy w op.offset buf op.dataOff op.length) reqTs []
      ((s.doWrite objectSize b buf op.dataOff 0 op.length).updateMeta op.offset b append
        reqTs) := by
  have hts' : ∀ c, (s.metaTbl c).tsWrite ≤ reqTs :=
    fun c => Nat.le_trans (h.sound c).tsWrite_le hts
  have hslots : Slots (s.doWrite objectSize b buf op.dataOff 0 op.length) := h.slots.congr rfl rfl
  have hup := updateMeta_spec hslots (hb.congr rfl rfl) (hts' op.offset)
  have hself : Dirty _ op.offset := congrArg Block.ifClean hup.self
  have hother : ∀ {k}, k ≠ op.offset → (Dirty _ k ↔ Dirty s k) :=
    fun hk => iff_of_eq (congrArg (fun e : Block => e.ifClean = false) (hup.other _ hk))
  refine ⟨hup.slots, fun c => ?_, fun x hx => ?_, ?_, fun c => ?_, fun c => ?_, h.flying_nodup,
    fun _ haio => absurd haio not_mem_nil⟩
  · rw [hup.device]
    by_cases hc : c = op.offset
    · rw [hc, hup.self]
      exact ⟨Nat.le_refl _, fun _ => ⟨hb.nonneg, rfl, haligned, fun i hi => slot_memcpy hrest hi⟩⟩
    · rw [hup.other c hc]
      refine ⟨hts' c, fun hd => ?_⟩
      have hold := (h.sound c).written hd
      refine ⟨hold.index, hold.offset, hold.aligned, fun i hi => ?_⟩
      rw [memcpy_object_of_ne haligned hold.aligned hc hlen hi, ← hold.slot i hi]
      exact memcpy_slot_of_ne hb.nonneg hold.index (hb.ne h.slots hc hold.index) hlen hi
  · have hne : x / objectSize * objectSize ≠ op.offset := fun heq => hx (heq ▸ hself)
    rw [hup.backend, memcpy_of_object_ne hpos haligned hne hlen]
    exact h.backend_eq x fun hd => hx ((hother hne).mpr hd)
  · rw [hup.lruDirty]
    exact nodup_touchKey h.lruDirty_nodup
  · rw [hup.lruDirty, mem_touchKey]
    by_cases hc : c = op.offset
    · exact iff_of_true (.inl hc) (hc ▸ hself)
    · rw [hother hc, or_iff_right hc]
      exact h.mem_lruDirty c
  · by_cases hc : c = op.offset
    · rw [hc, hup.self]
      exact h.inflight op.offset
    · rw [hup.other c hc]
      exact h.inflight c

theorem toInt_of_lt {n : Nat} (h : n < 2 ^ 31) : toInt n = n := by
  unfold toInt
  rw [Int.bmod_eq_of_le] <;> omega

def Covered (objectSize : Nat) (w : Bytes) (now : Nat) (s : SimpleBlockCacher) (op : Op) : Prop :=
  objectSize ∣ op.offset ∧ ∀ p ∈ (s.blockFor objectSize op.offset op.length now).2,
    ∀ i < objectSize, op.length ≤ i → s.device (p.1.toNat * objectSize + i) = w (op.offset + i)

instance (w : Bytes) (now : Nat) (s : SimpleBlockCacher) (op : Op) :
    Decidable (Covered objectSize w now s op) :=
  inferInstanceAs (Decidable (_ ∧ _))

theorem Coherent.write (hpos : 0 < objectSize) (hsize : objectSize < 2 ^ 31)
    (h : Coherent objectSize w ts [] s) (hts : ts ≤ reqTs) (hcov : Covered objectSize w now s op)
    (hlen : op.length ≤ objectSize) (buf : Bytes) :
    ∃ s', write objectSize buf reqTs now s op = some s'
      ∧ Coherent objectSize (memcpy w op.offset buf op.dataOff op.length) reqTs [] s' := by
  obtain ⟨haligned, hrest⟩ := hcov
  have hchosen := h.blockFor op.offset op.length now
  have hoff : op.offset % objectSize = 0 := Nat.mod_eq_zero_of_dvd haligned
  have hint : (0 : Int) ≤ toInt op.length := by
    rw [toInt_of_lt (by omega)]
    omega
  unfold SimpleBlockCacher.write
  dsimp only
  rw [hoff, if_pos (by omega)]
  generalize s.blockFor objectSize op.offset op.length now = choice at hchosen hrest
  obtain ⟨t, place⟩ := choice
  cases place with
  | none => exact ⟨_, rfl, (hchosen.coherent.around haligned hlen (hchosen.around rfl)).mono hts⟩
  | some p =>
    obtain ⟨b, append⟩ := p
    have hb : Available t op.offset b append := by
      cases append with
      | true => exact hchosen.append b rfl
      | false => exact hchosen.inPlace b rfl
    refine ⟨_, if_pos hint, hchosen.coherent.stored hpos hts haligned hlen hb fun i hi hle => ?_⟩
    rw [hchosen.device]
    exact hrest _ rfl i hi hle

/-! ## Requests -/

theorem lengthByEntry_pos (hpos : 0 < objectSize) (offset : Nat) {left : Nat} (hleft : 0 < left) :
    0 < lengthByEntry objectSize offset left := by
  have := Nat.mod_lt offset hpos
  unfold lengthByEntry
  split <;> omega

theorem lengthByEntry_le (objectSize offset left : Nat) :
    lengthByEntry objectSize offset left ≤ left := by
  unfold lengthByEntry
  split <;> omega

theorem mod_add_lengthByEntry_le (hpos : 0 < objectSize) (offset left : Nat) :
    offset % objectSize + lengthByEntry objectSize offset left ≤ objectSize := by
  have := Nat.mod_lt offset hpos
  unfold lengthByEntry
  split <;> omega

/-- **The loop over the pieces of a write**: whatever of the volume is still to be written is as
it was before the request. -/
theorem Coherent.writePieces (hpos : 0 < objectSize) (hsize : objectSize < 2 ^ 31) {w₀ : Bytes} :
    ∀ (fuel offset left dataOff : Nat) {s : SimpleBlockCacher} {w : Bytes}, left ≤ fuel →
      Coherent objectSize w reqTs [] s → (∀ x, offset ≤ x → w x = w₀ x) →
      Along (SimpleBlockCacher.write objectSize buf reqTs now) (Covered objectSize w₀ now) s
        (pieces objectSize fuel offset left dataOff) →
      ∃ s', (pieces objectSize fuel offset left dataOff).foldlM
          (SimpleBlockCacher.write objectSize buf reqTs now) s = some s'
        ∧ Coherent objectSize (memcpy w offset buf dataOff left) reqTs [] s' := by
  intro fuel
  induction fuel with
  | zero =>
    intro offset left dataOff s w hfuel h _ _
    obtain rfl : left = 0 := by omega
    exact ⟨s, rfl, by rwa [memcpy_zero]⟩
  | succ fuel ih =>
    intro offset left dataOff s w hfuel h hsame hcov
    rw [pieces] at hcov ⊢
    by_cases hleft : left = 0
    · rw [if_pos hleft, hleft, memcpy_zero]
      exact ⟨s, rfl, h⟩
    · rw [if_neg hleft] at hcov ⊢
      dsimp only at hcov ⊢
      have hlpos := lengthByEntry_pos hpos offset (Nat.pos_of_ne_zero hleft)
      have hlle := lengthByEntry_le objectSize offset left
      have hobj := mod_add_lengthByEntry_le hpos offset left
      generalize lengthByEntry objectSize offset left = len at *
      have hpiece : Covered objectSize w now s ⟨offset, len, dataOff⟩ := by
        refine ⟨hcov.1.1, fun p hp i hi hle => ?_⟩
        rw [hcov.1.2 p hp i hi hle]
        exact (hsame _ (Nat.le_add_right offset i)).symm
      have hlen : len ≤ objectSize := by omega
      obtain ⟨t, hwrite, ht⟩ := h.write hpos hsize (Nat.le_refl _) hpiece hlen buf
      have hahead : ∀ x, offset + len ≤ x → memcpy w offset buf dataOff len x = w₀ x := by
        intro x hx
        rw [memcpy_of_not_mem (by omega), hsame x (by omega)]
      obtain ⟨s', hfold, hs'⟩ := ih (offset + len) (left - len) (dataOff + len) (by omega) ht
        hahead (hcov.2 t hwrite)
      refine ⟨s', ?_, ?_⟩
      · rw [foldlM_cons, hwrite]
        exact hfold
      · rwa [memcpy_memcpy_next hlle] at hs'

/-! ## Reading -/

theorem touch_eq (s : SimpleBlockCacher) (c : Nat) : s.touch c
    = { s with
        lruClean := if (s.metaTbl c).ifClean then touchKey c s.lruClean else s.lruClean
        lruDirty := if (s.metaTbl c).ifClean then s.lruDirty else touchKey c s.lruDirty } := by
  unfold touch
  split <;> rfl

theorem Coherent.touch (h : Coherent objectSize w ts flying s) (c : Nat) :
    Coherent objectSize w ts flying (s.touch c) := by
  rw [touch_eq]
  refine h.quiet (h.slots.congr rfl rfl) rfl rfl ?_ ?_ fun _ => .inl rfl
  · dsimp only
    split
    · exact h.lruDirty_nodup
    · exact nodup_touchKey h.lruDirty_nodup
  · intro k
    dsimp only
    split
    · exact Iff.rfl
    · rename_i hdirty
      rw [mem_touchKey]
      refine or_iff_right_of_imp ?_
      rintro rfl
      exact (h.mem_lruDirty k).mpr ((Bool.not_eq_true _).mp hdirty)

structure OnlyEntry (c : Nat) (s s' : SimpleBlockCacher) : Prop where
  device : s'.device = s.device
  backend : s'.backend = s.backend
  other : ∀ k, k ≠ c → s'.metaTbl k = s.metaTbl k

theorem OnlyEntry.touch {c : Nat} (h : OnlyEntry c s s') : OnlyEntry c s (s'.touch c) := by
  rw [touch_eq]
  exact ⟨h.device, h.backend, h.other⟩

theorem Coherent.promote (h : Coherent objectSize w ts flying s) {b : Int}
    (hnone : (s.metaTbl op.offset).onDiskIndex = -1) (hb : 0 ≤ b → Taken s b)
    (hint : 0 < toInt op.length) :
    Coherent objectSize w ts flying (s.promote objectSize b op)
      ∧ OnlyEntry op.offset s (s.promote objectSize b op) := by
  unfold SimpleBlockCacher.promote
  split
  · rename_i hpos
    rw [if_pos (Int.le_of_lt hint), if_neg (Int.ne_of_gt hint)]
    obtain ⟨hclean, hts⟩ := h.of_index hnone
    have honly : OnlyEntry op.offset s (s.setBlock op.offset
        { s.metaTbl op.offset with onDiskIndex := b, onVolumeOffset := op.offset }) :=
      ⟨rfl, rfl, fun k hk => setBlock_of_ne hk⟩
    refine ⟨Coherent.touch ?_ _, honly.touch⟩
    refine h.quiet (h.slots.assign hnone (hb hpos)) rfl rfl h.lruDirty_nodup (fun _ => Iff.rfl)
      fun k => ?_
    by_cases hk : k = op.offset
    · refine .inr ?_
      rw [hk, setBlock_self]
      exact ⟨hclean, hclean, hts, rfl⟩
    · exact .inl (setBlock_of_ne hk)
  · exact ⟨h, rfl, rfl, fun _ _ => rfl⟩

/-- What a piece that starts at `start` is answered with for the address `x`. -/
def byteFrom (objectSize : Nat) (s : SimpleBlockCacher) (start x : Nat) : UInt8 :=
  if (s.metaTbl start).onDiskIndex ≠ -1 then
    s.device ((s.metaTbl start).onDiskIndex.toNat * objectSize + x % objectSize)
  else s.backend x

theorem byteFrom_congr {start x : Nat} (hmeta : s'.metaTbl start = s.metaTbl start)
    (hdevice : s'.device = s.device) (hbackend : s'.backend = s.backend) :
    byteFrom objectSize s' start x = byteFrom objectSize s start x := by
  unfold byteFrom
  rw [hmeta, hdevice, hbackend]

theorem Coherent.read (hsize : objectSize < 2 ^ 31) (h : Coherent objectSize w ts [] s) (op : Op)
    (hlen : 0 < op.length) (hobj : op.offset % objectSize + op.length ≤ objectSize) (data : Bytes) :
    ∃ s' data', SimpleBlockCacher.read objectSize (s, data) op = some (s', data')
      ∧ Coherent objectSize w ts [] s' ∧ OnlyEntry op.offset s s'
      ∧ (∀ i < op.dataOff, data' i = data i)
      ∧ ∀ i < op.length, data' (op.dataOff + i)
          = byteFrom objectSize s op.offset (op.offset + i) := by
  have hint : 0 < toInt op.length := by
    rw [toInt_of_lt (by omega)]
    omega
  have hbefore : ∀ {src : Bytes} {soff : Nat}, ∀ i < op.dataOff,
      memcpy data op.dataOff src soff op.length i = data i :=
    fun i hi => memcpy_of_not_mem (by omega)
  have hin : ∀ {src : Bytes} {soff : Nat}, ∀ i < op.length,
      memcpy data op.dataOff src soff op.length (op.dataOff + i) = src (soff + i) := by
    intro src soff i hi
    rw [memcpy_of_mem (by omega) (by omega), Nat.add_sub_cancel_left]
  unfold SimpleBlockCacher.read byteFrom
  dsimp only
  rw [if_pos hobj]
  split
  · rename_i hhit
    have hindex : 0 ≤ (s.metaTbl op.offset).onDiskIndex := by
      have := h.slots.index_ge op.offset
      omega
    rw [if_pos ⟨Int.le_of_lt hint, hindex⟩]
    refine ⟨_, _, rfl, h.touch op.offset, OnlyEntry.touch ⟨rfl, rfl, fun _ _ => rfl⟩, hbefore,
      fun i hi => ?_⟩
    rw [hin i hi, Nat.add_assoc, Nat.add_mod, Nat.mod_eq_of_lt (a := i) (by omega)]
    congr 2
    exact (Nat.mod_eq_of_lt (by omega)).symm
  · rename_i hmiss
    have hnone := not_not.mp hmiss
    obtain ⟨hc, honly⟩ := h.freeLookup.promote (by rw [freeLookup_metaTbl]; exact hnone)
      h.slots.taken hint
    refine ⟨_, _, rfl, hc, ⟨honly.device.trans freeLookup_device,
      honly.backend.trans freeLookup_backend, fun k hk => ?_⟩, hbefore, hin⟩
    rw [honly.other k hk, freeLookup_metaTbl]

def startOf (objectSize offset x : Nat) : Nat := max offset (x / objectSize * objectSize)

theorem startOf_first {offset i : Nat} (hobj : offset % objectSize + i < objectSize) :
    startOf objectSize offset (offset + i) = offset := by
  have hsplit := Nat.div_add_mod' offset objectSize
  have hdiv : (offset + i) / objectSize = offset / objectSize := by
    refine Nat.div_eq_of_lt_le (by omega) ?_
    rw [Nat.add_mul]
    omega
  unfold startOf
  rw [hdiv]
  omega

theorem startOf_of_aligned {offset next x : Nat} (hpos : 0 < objectSize) (hdvd : objectSize ∣ next)
    (hle : offset ≤ next) (hx : next ≤ x) :
    startOf objectSize offset x = x / objectSize * objectSize
      ∧ next ≤ x / objectSize * objectSize := by
  obtain ⟨m, rfl⟩ := hdvd
  have hm : m ≤ x / objectSize := (Nat.le_div_iff_mul_le hpos).mpr (by rwa [Nat.mul_comm])
  have hstart : objectSize * m ≤ x / objectSize * objectSize := by
    rw [Nat.mul_comm]
    exact Nat.mul_le_mul_right objectSize hm
  exact ⟨Nat.max_eq_right (Nat.le_trans hle hstart), hstart⟩

theorem startOf_eq_of_dvd (hpos : 0 < objectSize) {offset x : Nat} (hx : offset ≤ x)
    (hdvd : objectSize ∣ startOf objectSize offset x) :
    startOf objectSize offset x = x / objectSize * objectSize := by
  have hle : startOf objectSize offset x ≤ x := Nat.max_le.mpr ⟨hx, Nat.div_mul_le_self x _⟩
  have hstart := (startOf_of_aligned hpos hdvd (Nat.le_refl _) hle).2
  exact Nat.le_antisymm hstart (Nat.le_max_right _ _)

theorem dvd_add_lengthByEntry (hpos : 0 < objectSize) (offset left : Nat)
    (h : lengthByEntry objectSize offset left < left) :
    objectSize ∣ offset + lengthByEntry objectSize offset left := by
  have hmod := Nat.mod_lt offset hpos
  have hsplit := Nat.div_add_mod' offset objectSize
  unfold lengthByEntry at h ⊢
  split at h
  · rename_i hlt
    rw [if_pos hlt]
    refine ⟨offset / objectSize + 1, ?_⟩
    rw [Nat.mul_comm, Nat.add_mul]
    omega
  · omega

/-- **The loop over the pieces of a read**: a piece does not change what the next one gets. -/
theorem Coherent.readPieces (hpos : 0 < objectSize) (hsize : objectSize < 2 ^ 31) :
    ∀ (fuel offset left dataOff : Nat) {s : SimpleBlockCacher} (data : Bytes), left ≤ fuel →
      Coherent objectSize w ts [] s →
      ∃ s' data', (pieces objectSize fuel offset left dataOff).foldlM
          (SimpleBlockCacher.read objectSize) (s, data) = some (s', data')
        ∧ Coherent objectSize w ts [] s' ∧ (∀ i < dataOff, data' i = data i)
        ∧ ∀ i < left, data' (dataOff + i)
            = byteFrom objectSize s (startOf objectSize offset (offset + i)) (offset + i) := by
  intro fuel
  induction fuel with
  | zero =>
    intro offset left dataOff s data hfuel h
    exact ⟨s, data, rfl, h, fun _ _ => rfl, fun i hi => by omega⟩
  | succ fuel ih =>
    intro offset left dataOff s data hfuel h
    rw [pieces]
    by_cases hleft : left = 0
    · rw [if_pos hleft]
      exact ⟨s, data, rfl, h, fun _ _ => rfl, fun i hi => by omega⟩
    · rw [if_neg hleft]
      dsimp only
      have hlpos := lengthByEntry_pos hpos offset (Nat.pos_of_ne_zero hleft)
      have hlle := lengthByEntry_le objectSize offset left
      have hobj := mod_add_lengthByEntry_le hpos offset left
      have hdvd := dvd_add_lengthByEntry hpos offset left
      generalize lengthByEntry objectSize offset left = len at *
      obtain ⟨t, data₁, hread, ht, honly, hkept, hgot⟩ :=
        Coherent.read hsize h ⟨offset, len, dataOff⟩ hlpos hobj data
      obtain ⟨s', data', hfold, hs', hkept', hgot'⟩ :=
        ih (offset + len) (left - len) (dataOff + len) data₁ (by omega) ht
      refine ⟨s', data', ?_, hs', fun i hi => ?_, fun i hi => ?_⟩
      · rw [foldlM_cons, hread]
        exact hfold
      · rw [hkept' i (by omega)]
        exact hkept i hi
      · by_cases hi' : i < len
        · rw [hkept' _ (by omega), startOf_first (by omega)]
          exact hgot i hi'
        · have hbyte := hgot' (i - len) (by omega)
          rw [show dataOff + len + (i - len) = dataOff + i by omega,
            show offset + len + (i - len) = offset + i by omega] at hbyte
          -- from here on every piece starts where its object does
          have hnext := startOf_of_aligned hpos (hdvd (by omega)) (Nat.le_add_right offset len)
            (x := offset + i) (by omega)
          have hsame := startOf_of_aligned hpos (hdvd (by omega)) (Nat.le_refl (offset + len))
            (x := offset + i) (by omega)
          rw [hbyte, hnext.1, hsame.1]
          refine byteFrom_congr (honly.other _ ?_) honly.device honly.backend
          change _ ≠ offset
          omega

end HDCS.SimpleBlockCacher
