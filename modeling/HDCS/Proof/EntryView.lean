import HDCS.Core.CacherChain
import HDCS.Proof.SimpleBlockCacher

/-!
# One entry of the librbd cache, seen through `read` and `write`

To those who start at its offset an entry is the bytes up to the end of the object. If it has
a slot they are there. If it has none they are in the backend, and it matters besides which
slot the next `write` or `read` would give it, since the slot is not filled (`EntryView`).

The nodes they can find are in one line: the free list, and behind it what `evict_all_clean`
would free (`supply`). A `read` takes one node off the line and a `write` takes a second one if
the first is no slot. `return_to_free` puts an unset index into the line like any other, so that
a `write` may find two of them and go around the cache although there are slots behind them.

`write` and `read` of the cacher do to its view what is said here about a view (`write_view`,
`read_view`), where no write is late and the next `write` would find a slot, or nobody
(`Ready`). What a `write` does that finds none is said by `write_around`.
-/

namespace HDCS.Proof

open Lib Lib.Machine SimpleBlockCacher Function List

inductive EntryView where
  | slotted (content : Bytes)
  /-- With what is in the slot the next `write` would find, and how many `read`s would find none
  before one of them finds it. -/
  | unslotted (content : Bytes) (next : Option (Bytes × Option Nat))

namespace EntryView

def content : EntryView → Bytes
  | .slotted content => content
  | .unslotted content _ => content

def write (buf : Bytes) (dataOff length : Nat) : EntryView → EntryView
  | .slotted content => .slotted (memcpy content 0 buf dataOff length)
  | .unslotted _ (some next) => .slotted (memcpy next.1 0 buf dataOff length)
  -- around the cache
  | .unslotted content none => .unslotted (memcpy content 0 buf dataOff length) none

def read : EntryView → EntryView
  -- the slot becomes that of the entry, and is not filled
  | .unslotted _ (some (found, some 0)) => .slotted found
  | .unslotted content (some (found, some (misses + 1))) =>
    .unslotted content (some (found, some misses))
  | v => v

end EntryView

variable {objectSize offset ts now : Nat} {s t : SimpleBlockCacher}

def slotWindow (objectSize offset : Nat) (device : Bytes) (b : Int) : Bytes :=
  window (objectSize - offset % objectSize) (b.toNat * objectSize + offset % objectSize) device

def evicted (offset : Nat) (s : SimpleBlockCacher) : List Int :=
  (evictAllClean (some offset) 0 { s with freeNodes := [] }).freeNodes

def supply (offset : Nat) (s : SimpleBlockCacher) : List Int := s.freeNodes ++ evicted offset s

def slotOnWrite (offset : Nat) (s : SimpleBlockCacher) : Option Int :=
  ((supply offset s).take 2).find? (0 ≤ ·)

def view (objectSize offset : Nat) (s : SimpleBlockCacher) : EntryView :=
  if (s.metaTbl offset).onDiskIndex = -1 then
    .unslotted (window (objectSize - offset % objectSize) offset s.backend)
      ((slotOnWrite offset s).map fun b =>
        (slotWindow objectSize offset s.device b, s.freeNodes.findIdx? (0 ≤ ·)))
  else .slotted (slotWindow objectSize offset s.device (s.metaTbl offset).onDiskIndex)

/-- The entry has a slot, or the next `write` to it would find one, or nobody would. -/
def SlotInSight (offset : Nat) (s : SimpleBlockCacher) : Prop :=
  (s.metaTbl offset).onDiskIndex ≠ -1
    ∨ (slotOnWrite offset s).isSome ∨ ∀ b ∈ supply offset s, b < 0

instance (offset : Nat) (s : SimpleBlockCacher) : Decidable (SlotInSight offset s) :=
  inferInstanceAs (Decidable (_ ∨ _ ∨ _))

/-- An index is unset or a slot. -/
def ValidIndices (s : SimpleBlockCacher) : Prop := ∀ c, -1 ≤ (s.metaTbl c).onDiskIndex

structure Ready (offset ts : Nat) (s : SimpleBlockCacher) : Prop where
  slot : 0 ≤ (s.metaTbl offset).onDiskIndex ∨ ValidIndices s ∧ SlotInSight offset s
  /-- No request of a later time was served before. -/
  inTime : (s.metaTbl offset).tsWrite ≤ ts

/-! ## The nodes of `evict_all_clean` -/

def StaysCached (locked : Option Nat) (s : SimpleBlockCacher) (c : Nat) : Prop :=
  locked = some c ∨ (s.metaTbl c).onDiskIndex = -1 ∨ (s.metaTbl c).ifClean = false
    ∨ (s.metaTbl c).inflightFlush = true

theorem doEvict_cases (locked : Option Nat) (now : Nat) (s : SimpleBlockCacher) (c : Nat) :
    StaysCached locked s c ∧ doEvict locked now s c = s
      ∨ ¬ StaysCached locked s c ∧ doEvict locked now s c
        = { s with
            metaTbl := update s.metaTbl c (.reset now)
            freeNodes := s.freeNodes ++ [(s.metaTbl c).onDiskIndex]
            lruClean := LruList.remove c s.lruClean } := by
  unfold SimpleBlockCacher.doEvict
  dsimp only
  split_ifs with hlocked hunset hdirty hflying
  · exact Or.inl ⟨Or.inl hlocked, rfl⟩
  · exact Or.inl ⟨Or.inr (Or.inl hunset), rfl⟩
  · exact Or.inl ⟨Or.inr (Or.inr (Or.inl hdirty)), rfl⟩
  · exact Or.inl ⟨Or.inr (Or.inr (Or.inr hflying)), rfl⟩
  · refine Or.inr ⟨?_, rfl⟩
    rintro (h | h | h | h)
    · exact hlocked h
    · exact hunset h
    · exact hdirty h
    · exact hflying h

structure SameSlots (front : List Int) (s t : SimpleBlockCacher) : Prop where
  freeNodes : t.freeNodes = front ++ s.freeNodes
  index : ∀ c, (t.metaTbl c).onDiskIndex = (s.metaTbl c).onDiskIndex
  clean : ∀ c, (t.metaTbl c).ifClean = (s.metaTbl c).ifClean
  inflight : ∀ c, (t.metaTbl c).inflightFlush = (s.metaTbl c).inflightFlush

variable {front : List Int}

theorem SameSlots.doEvict (h : SameSlots front s t) (locked : Option Nat) (now now' c : Nat) :
    SameSlots front (doEvict locked now s c) (doEvict locked now' t c) := by
  have hkept : StaysCached locked t c ↔ StaysCached locked s c := by
    rw [StaysCached, StaysCached, h.index, h.clean, h.inflight]
  rcases doEvict_cases locked now s c with ⟨hs, heq⟩ | ⟨hs, heq⟩
  · rcases doEvict_cases locked now' t c with ⟨_, heq'⟩ | ⟨ht, _⟩
    · rw [heq, heq']
      exact h
    · exact absurd (hkept.mpr hs) ht
  · rcases doEvict_cases locked now' t c with ⟨ht, _⟩ | ⟨_, heq'⟩
    · exact absurd (hkept.mp ht) hs
    · rw [heq, heq', h.index]
      have hentry : ∀ {β : Type} (f : Block → β), f (Block.reset now') = f (Block.reset now) →
          (∀ k, f (t.metaTbl k) = f (s.metaTbl k)) → ∀ k,
            f (update t.metaTbl c (Block.reset now') k)
              = f (update s.metaTbl c (Block.reset now) k) := by
        intro β f hreset hother k
        by_cases hk : k = c
        · subst hk
          rw [update_self, update_self, hreset]
        · rw [update_of_ne hk, update_of_ne hk, hother k]
      refine ⟨?_, hentry _ rfl h.index, hentry _ rfl h.clean, hentry _ rfl h.inflight⟩
      exact (congrArg (· ++ _) h.freeNodes).trans (append_assoc ..)

theorem SameSlots.foldl_doEvict (locked : Option Nat) (now now' : Nat) :
    ∀ (l : List Nat) {s t : SimpleBlockCacher}, SameSlots front s t →
      SameSlots front (l.foldl (SimpleBlockCacher.doEvict locked now) s)
        (l.foldl (SimpleBlockCacher.doEvict locked now') t)
  | [], _, _, h => h
  | c :: l, _, _, h => SameSlots.foldl_doEvict locked now now' l (h.doEvict locked now now' c)

theorem freeNodes_evictAllClean (offset now : Nat) (s : SimpleBlockCacher) :
    (s.evictAllClean (some offset) now).freeNodes = supply offset s := by
  have hsame : SameSlots s.freeNodes { s with freeNodes := [] } s :=
    ⟨(append_nil _).symm, fun _ => rfl, fun _ => rfl, fun _ => rfl⟩
  exact (hsame.foldl_doEvict (some offset) 0 now s.lruClean.reverse).freeNodes

theorem supply_bytes (offset : Nat) (s : SimpleBlockCacher) (device backend : Bytes) :
    supply offset { s with device := device, backend := backend } = supply offset s := by
  have hsame : SameSlots [] { s with freeNodes := [] }
      { s with freeNodes := [], device := device, backend := backend } :=
    ⟨rfl, fun _ => rfl, fun _ => rfl, fun _ => rfl⟩
  exact congrArg (s.freeNodes ++ ·)
    (hsame.foldl_doEvict (some offset) 0 0 s.lruClean.reverse).freeNodes

theorem ValidIndices.evictAllClean (h : ValidIndices s) (locked : Option Nat) (now : Nat) :
    ValidIndices (s.evictAllClean locked now)
      ∧ ∀ b ∈ (s.evictAllClean locked now).freeNodes, b ∈ s.freeNodes ∨ 0 ≤ b := by
  refine foldl_invariant
    (I := fun _ t => ValidIndices t ∧ ∀ b ∈ t.freeNodes, b ∈ s.freeNodes ∨ 0 ≤ b)
    ⟨h, fun _ hb => Or.inl hb⟩ ?_ _
  intro done c t ⟨hindex, hnodes⟩
  rcases doEvict_cases locked now t c with ⟨_, heq⟩ | ⟨hkept, heq⟩
  · rw [heq]
    exact ⟨hindex, hnodes⟩
  rw [heq]
  constructor
  · intro k
    dsimp only
    by_cases hk : k = c
    · rw [hk, update_self]
      exact Int.le_refl (-1)
    · rw [update_of_ne hk]
      exact hindex k
  · intro b hb
    rcases mem_append.mp hb with hb | hb
    · exact hnodes b hb
    · obtain rfl := mem_singleton.mp hb
      have hset : (t.metaTbl c).onDiskIndex ≠ -1 := fun hunset => hkept (Or.inr (Or.inl hunset))
      have hge := hindex c
      omega

theorem ValidIndices.evicted (h : ValidIndices s) : ∀ b ∈ evicted offset s, 0 ≤ b := by
  intro b hb
  have hnodes := (ValidIndices.evictAllClean (s := { s with freeNodes := [] }) h (some offset) 0).2
  rcases hnodes b hb with hold | hnew
  · exact absurd hold not_mem_nil
  · exact hnew

theorem evicted_evictAllClean (offset now : Nat) (s : SimpleBlockCacher) :
    evicted offset (s.evictAllClean (some offset) now) = [] := by
  obtain ⟨hkept, hclean⟩ : (∀ c ∈ s.lruClean.reverse,
        StaysCached (some offset) (s.evictAllClean (some offset) now) c)
      ∧ ∀ c ∈ (s.evictAllClean (some offset) now).lruClean, c ∈ s.lruClean := by
    refine foldl_invariant (I := fun done t => (∀ c ∈ done, StaysCached (some offset) t c)
      ∧ ∀ c ∈ t.lruClean, c ∈ s.lruClean) ⟨fun _ h => absurd h not_mem_nil, fun _ h => h⟩ ?_ _
    intro done c t ⟨hdone, hclean⟩
    rcases doEvict_cases (some offset) now t c with ⟨hkept, heq⟩ | ⟨_, heq⟩
    · rw [heq]
      refine ⟨fun k hk => ?_, hclean⟩
      rcases mem_append.mp hk with hk | hk
      · exact hdone k hk
      · exact mem_singleton.mp hk ▸ hkept
    · rw [heq]
      refine ⟨fun k hk => ?_, fun k hk => hclean k (mem_of_mem_erase hk)⟩
      rw [StaysCached]
      dsimp only
      by_cases hkc : k = c
      · refine Or.inr (Or.inl ?_)
        rw [hkc, update_self]
        rfl
      · rw [update_of_ne hkc]
        exact hdone k ((mem_append.mp hk).resolve_right fun h =>
          hkc (mem_singleton.mp h))
  generalize s.evictAllClean (some offset) now = t at *
  have hfold : ∀ l : List Nat, (∀ c ∈ l, c ∈ t.lruClean) →
      l.foldl (doEvict (some offset) 0) { t with freeNodes := [] }
        = { t with freeNodes := [] } := by
    intro l hl
    induction l with
    | nil => rfl
    | cons c l ih =>
      have hc := hkept c (mem_reverse.mpr (hclean c (hl c mem_cons_self)))
      rcases doEvict_cases (some offset) 0 { t with freeNodes := [] } c with ⟨_, heq⟩ | ⟨hnot, _⟩
      · rw [foldl_cons, heq]
        exact ih fun k hk => hl k (mem_cons_of_mem c hk)
      · exact absurd hc hnot
  exact congrArg SimpleBlockCacher.freeNodes
    (hfold t.lruClean.reverse fun c hc => mem_reverse.mp hc)

/-! ## Where `write` finds a slot -/

theorem evictAllClean_self (now : Nat) :
    (s.freeLookup.2.evictAllClean (some offset) now).freeLookup.2.metaTbl offset
      = s.metaTbl offset := by
  rw [freeLookup_metaTbl, (untouched_evictAllClean (some offset) now _).entry offset rfl,
    freeLookup_metaTbl]

theorem untouched_blockFor (objectSize offset length now : Nat) (s : SimpleBlockCacher) :
    Untouched (some offset) s (s.blockFor objectSize offset length now).1 := by
  have hfree : ∀ t : SimpleBlockCacher, Untouched (some offset) t t.freeLookup.2 := fun t =>
    ⟨freeLookup_device, freeLookup_backend, fun _ _ => by rw [freeLookup_metaTbl]⟩
  have hall : Untouched (some offset) s
      (s.freeLookup.2.evictAllClean (some offset) now).freeLookup.2 :=
    ((hfree s).trans (untouched_evictAllClean _ now _)).trans (hfree _)
  unfold SimpleBlockCacher.blockFor
  dsimp only
  split_ifs
  · exact ⟨rfl, rfl, fun _ _ => rfl⟩
  · exact hfree s
  · exact hall
  · exact hall
  · exact hall

theorem blockFor_of_slot (objectSize : Nat) (hslot : 0 ≤ (s.metaTbl offset).onDiskIndex)
    (length now : Nat) :
    ∃ b append, (s.blockFor objectSize offset length now).2 = some (b, append) ∧ 0 ≤ b
      ∧ (length < objectSize → b = (s.metaTbl offset).onDiskIndex) := by
  have hne : (s.metaTbl offset).onDiskIndex ≠ -1 := by omega
  unfold SimpleBlockCacher.blockFor
  dsimp only
  rw [evictAllClean_self, if_neg hne]
  split_ifs with hplace hfound hfound'
  · exact ⟨_, _, rfl, hslot, fun _ => rfl⟩
  · exact ⟨_, _, rfl, hfound, fun hlt => absurd ⟨hne, hlt⟩ hplace⟩
  · exact ⟨_, _, rfl, hfound', fun hlt => absurd ⟨hne, hlt⟩ hplace⟩
  · exact ⟨_, _, rfl, hslot, fun _ => rfl⟩

theorem slotOnWrite_of_slot {b : Int} {rest : List Int} (hs : supply offset s = b :: rest)
    (hb : 0 ≤ b) : slotOnWrite offset s = some b := by
  rw [slotOnWrite, hs]
  exact find?_cons_of_pos (decide_eq_true hb)

theorem slotOnWrite_of_blank {b : Int} {rest : List Int} (hs : supply offset s = b :: rest)
    (hb : ¬ 0 ≤ b) : slotOnWrite offset s = (rest.take 1).find? (0 ≤ ·) := by
  rw [slotOnWrite, hs]
  exact find?_cons_of_neg (by simpa using hb)

theorem blockFor_of_unset (objectSize : Nat) (hunset : (s.metaTbl offset).onDiskIndex = -1)
    (hindex : ValidIndices s) (length now : Nat) :
    (∃ b, (s.blockFor objectSize offset length now).2 = some (b, true) ∧ 0 ≤ b
        ∧ slotOnWrite offset s = some b)
      ∨ (s.blockFor objectSize offset length now).2 = none ∧ slotOnWrite offset s = none
        ∧ supply offset (s.blockFor objectSize offset length now).1 = (supply offset s).drop 2
        ∧ ValidIndices (s.blockFor objectSize offset length now).1 := by
  unfold SimpleBlockCacher.blockFor
  dsimp only
  rw [evictAllClean_self, hunset, if_neg fun hand => hand.1 rfl, if_pos rfl]
  rcases freeLookup_eq s with ⟨hnil, heq⟩ | ⟨b, rest, hcons, heq⟩
  · -- nothing is free
    rw [heq, if_neg (show ¬ (0 : Int) ≤ -1 by decide)]
    dsimp only
    have hnodes := freeNodes_evictAllClean offset now s
    have hsupply : supply offset s = evicted offset s := congrArg (· ++ _) hnil
    have hevicted := evicted_evictAllClean offset now s
    have hindexed := (hindex.evictAllClean (some offset) now).1
    generalize s.evictAllClean (some offset) now = u at *
    rcases freeLookup_eq u with ⟨hnil', heq'⟩ | ⟨b, rest, hcons, heq'⟩
    · rw [heq', if_neg (show ¬ (0 : Int) ≤ -1 by decide)]
      refine Or.inr ⟨rfl, ?_, ?_, hindexed⟩
      · rw [slotOnWrite, ← hnodes, hnil']
        rfl
      · rw [supply, hevicted, hnil', ← hnodes, hnil']
        rfl
    · have hb : 0 ≤ b := hindex.evicted b (by rw [← hsupply, ← hnodes, hcons]; simp)
      rw [heq', if_pos hb]
      exact Or.inl ⟨b, rfl, hb, slotOnWrite_of_slot (hnodes.symm.trans hcons) hb⟩
  · rw [heq]
    dsimp only
    have hsupply : supply offset s = b :: (rest ++ evicted offset s) := congrArg (· ++ _) hcons
    by_cases hb : 0 ≤ b
    · rw [if_pos hb]
      exact Or.inl ⟨b, rfl, hb, slotOnWrite_of_slot hsupply hb⟩
    rw [if_neg hb]
    have hnodes : (evictAllClean (some offset) now { s with freeNodes := rest }).freeNodes
        = rest ++ evicted offset s :=
      freeNodes_evictAllClean offset now { s with freeNodes := rest }
    have hevicted := evicted_evictAllClean offset now { s with freeNodes := rest }
    have hindexed := (ValidIndices.evictAllClean (s := { s with freeNodes := rest }) hindex
      (some offset) now).1
    rw [slotOnWrite_of_blank hsupply hb, hsupply, ← hnodes]
    generalize evictAllClean (some offset) now { s with freeNodes := rest } = u at *
    rcases freeLookup_eq u with ⟨hnil', heq'⟩ | ⟨b', rest', hcons', heq'⟩
    · rw [heq', if_neg (show ¬ (0 : Int) ≤ -1 by decide), hnil']
      refine Or.inr ⟨rfl, rfl, ?_, hindexed⟩
      rw [supply, hevicted, hnil']
      rfl
    · rw [heq', hcons']
      dsimp only
      by_cases hb' : 0 ≤ b'
      · rw [if_pos hb']
        exact Or.inl ⟨b', rfl, hb', find?_cons_of_pos (decide_eq_true hb')⟩
      · rw [if_neg hb']
        refine Or.inr ⟨rfl, ?_, ?_, hindexed⟩
        · exact find?_cons_of_neg (by simpa using hb')
        · exact (congrArg (rest' ++ ·) hevicted).trans (append_nil _)

/-! ## `write` and `read` -/

variable {buf data : Bytes} {op : Op}

theorem view_of_slot (hslot : 0 ≤ (s.metaTbl offset).onDiskIndex) :
    view objectSize offset s
      = .slotted (slotWindow objectSize offset s.device (s.metaTbl offset).onDiskIndex) :=
  if_neg (by omega)

theorem view_of_unset (hunset : (s.metaTbl offset).onDiskIndex = -1) :
    view objectSize offset s
      = .unslotted (window (objectSize - offset % objectSize) offset s.backend)
        ((slotOnWrite offset s).map fun b =>
          (slotWindow objectSize offset s.device b, s.freeNodes.findIdx? (0 ≤ ·))) :=
  if_pos hunset

theorem Ready.unset_or (h : Ready offset ts s) : 0 ≤ (s.metaTbl offset).onDiskIndex
    ∨ (s.metaTbl offset).onDiskIndex = -1 ∧ ValidIndices s
      ∧ ((slotOnWrite offset s).isSome ∨ ∀ b ∈ supply offset s, b < 0) := by
  rcases h.slot with hslot | ⟨hindex, hset | hsupplied⟩
  · exact Or.inl hslot
  · have hge := hindex offset
    exact Or.inl (by omega)
  · by_cases hunset : (s.metaTbl offset).onDiskIndex = -1
    · exact Or.inr ⟨hunset, hindex, hsupplied⟩
    · have hge := hindex offset
      exact Or.inl (by omega)

theorem slotOnWrite_eq_none (h : ∀ b ∈ supply offset s, b < 0) : slotOnWrite offset s = none :=
  find?_eq_none.mpr fun b hb => by
    have hneg := h b (mem_of_mem_take hb)
    simpa using hneg

theorem write_around (hfits : op.offset % objectSize + op.length ≤ objectSize)
    (hunset : (s.metaTbl op.offset).onDiskIndex = -1) (hindex : ValidIndices s)
    (hnone : slotOnWrite op.offset s = none) (buf : Bytes) (ts now : Nat) :
    ∃ s', write objectSize buf ts now s op = some s'
      ∧ s'.metaTbl op.offset = s.metaTbl op.offset ∧ ValidIndices s' ∧ s'.device = s.device
      ∧ s'.backend = memcpy s.backend op.offset buf op.dataOff op.length
      ∧ supply op.offset s' = (supply op.offset s).drop 2 := by
  have hun := untouched_blockFor objectSize op.offset op.length now s
  unfold SimpleBlockCacher.write
  dsimp only
  rw [if_pos hfits]
  rcases blockFor_of_unset objectSize hunset hindex op.length now with
    ⟨b, _, _, hfound⟩ | ⟨hplace, _, hsupply, hindexed⟩
  · cases hfound.symm.trans hnone
  · generalize s.blockFor objectSize op.offset op.length now = choice at *
    obtain ⟨t, place⟩ := choice
    obtain rfl : place = none := hplace
    refine ⟨_, rfl, hun.entry op.offset rfl, hindexed, hun.device, ?_,
      (supply_bytes op.offset t t.device _).trans hsupply⟩
    exact congrArg (memcpy · op.offset buf op.dataOff op.length) hun.backend

theorem view_stored (hfits : op.offset % objectSize + op.length ≤ objectSize) {b : Int}
    (hb : 0 ≤ b) (append : Bool) (hts : (s.metaTbl op.offset).tsWrite ≤ ts) (buf : Bytes) :
    view objectSize op.offset ((s.doWrite objectSize b buf op.dataOff (op.offset % objectSize)
        op.length).updateMeta op.offset b append ts)
      = .slotted (memcpy (slotWindow objectSize op.offset s.device b) 0 buf op.dataOff op.length)
    ∧ Ready op.offset ts ((s.doWrite objectSize b buf op.dataOff (op.offset % objectSize)
        op.length).updateMeta op.offset b append ts) := by
  obtain ⟨hself, hdevice⟩ := updateMeta_self
    (s := s.doWrite objectSize b buf op.dataOff (op.offset % objectSize) op.length) b append hts
  have hslot : (((s.doWrite objectSize b buf op.dataOff (op.offset % objectSize)
      op.length).updateMeta op.offset b append ts).metaTbl op.offset).onDiskIndex = b := by
    rw [hself]
    rfl
  constructor
  · rw [view_of_slot (by omega), hslot, hdevice]
    exact congrArg EntryView.slotted (window_memcpy (by omega))
  · refine ⟨Or.inl (by omega), ?_⟩
    rw [hself]
    exact Nat.le_refl ts

/-- **`write` does to the view of its entry what it should.** -/
theorem write_view (hsize : objectSize < 2 ^ 31)
    (hfits : op.offset % objectSize + op.length ≤ objectSize) (h : Ready op.offset ts s)
    (buf : Bytes) (now : Nat) :
    ∃ s', write objectSize buf ts now s op = some s'
      ∧ view objectSize op.offset s' = (view objectSize op.offset s).write buf op.dataOff op.length
      ∧ Ready op.offset ts s' := by
  have hint : 0 ≤ toInt op.length := by
    rw [toInt_of_lt (by omega)]
    omega
  have hun := untouched_blockFor objectSize op.offset op.length now s
  have hts : ((s.blockFor objectSize op.offset op.length now).1.metaTbl op.offset).tsWrite
      ≤ ts := by
    rw [hun.entry op.offset rfl]
    exact h.inTime
  -- where a slot is found, the bytes go there
  have hstored : ∀ {b : Int} {append : Bool},
      (s.blockFor objectSize op.offset op.length now).2 = some (b, append) → 0 ≤ b →
      ∃ s', write objectSize buf ts now s op = some s'
        ∧ view objectSize op.offset s' = .slotted
          (memcpy (slotWindow objectSize op.offset s.device b) 0 buf op.dataOff op.length)
        ∧ Ready op.offset ts s' := by
    intro b append hfound hb
    unfold SimpleBlockCacher.write
    dsimp only
    rw [if_pos hfits]
    generalize s.blockFor objectSize op.offset op.length now = choice at *
    obtain ⟨t, place⟩ := choice
    obtain rfl : place = some (b, append) := hfound
    obtain ⟨hview, hready⟩ := view_stored hfits hb append hts buf
    exact ⟨_, if_pos hint, hview.trans (by rw [hun.device]), hready⟩
  rcases h.unset_or with hslot | ⟨hunset, hindex, hsupplied⟩
  · obtain ⟨b, append, hfound, hb, hplace⟩ := blockFor_of_slot objectSize hslot op.length now
    obtain ⟨s', hwrite, hview, hready⟩ := hstored hfound hb
    refine ⟨s', hwrite, ?_, hready⟩
    rw [hview, view_of_slot hslot, EntryView.write]
    by_cases hlt : op.length < objectSize
    · rw [hplace hlt]
    · have hlength : op.length = objectSize - op.offset % objectSize := by omega
      rw [hlength]
      exact congrArg EntryView.slotted (memcpy_whole (clipped_window _ _ _) (clipped_window _ _ _))
  · rw [view_of_unset hunset]
    rcases blockFor_of_unset objectSize hunset hindex op.length now with
      ⟨b, hplace, hb, hfound⟩ | ⟨_, hnone, _, _⟩
    · rw [hfound]
      exact hstored hplace hb
    · obtain ⟨s', hwrite, hentry, hindexed, hdevice, hbackend, hsupply⟩ :=
        write_around hfits hunset hindex hnone buf ts now
      have hbarren : ∀ b ∈ supply op.offset s', b < 0 := by
        intro b hb
        rw [hnone] at hsupplied
        exact hsupplied.resolve_left (by simp) b (mem_of_mem_drop (hsupply ▸ hb))
      refine ⟨s', hwrite, ?_, Or.inr ⟨hindexed, Or.inr (Or.inr hbarren)⟩, hentry ▸ h.inTime⟩
      rw [view_of_unset (hentry ▸ hunset), hnone, slotOnWrite_eq_none hbarren, hbackend]
      exact congrArg (EntryView.unslotted · none) (window_memcpy (by omega))

theorem promote_eq {b : Int} (hint : toInt op.length = op.length) (hb : 0 ≤ b) :
    s.promote objectSize b op = (s.setBlock op.offset { s.metaTbl op.offset with
      onDiskIndex := b, onVolumeOffset := op.offset }).touch op.offset := by
  rw [promote, if_pos hb, hint, if_pos (Int.natCast_nonneg _)]
  by_cases hzero : (op.length : Int) = 0
  · rw [if_pos hzero, doWrite, Int.natCast_eq_zero.mp hzero, memcpy_zero]
  · rw [if_neg hzero]

theorem promote_view (hint : toInt op.length = op.length) {b : Int} (hb : 0 ≤ b)
    (hts : (s.metaTbl op.offset).tsWrite ≤ ts) :
    view objectSize op.offset (s.promote objectSize b op)
        = .slotted (slotWindow objectSize op.offset s.device b)
      ∧ Ready op.offset ts (s.promote objectSize b op) := by
  have hentry : (s.promote objectSize b op).metaTbl op.offset
      = { s.metaTbl op.offset with onDiskIndex := b, onVolumeOffset := op.offset } := by
    rw [promote_eq hint hb, touch_eq]
    exact setBlock_self
  have hdevice : (s.promote objectSize b op).device = s.device := by
    rw [promote_eq hint hb, touch_eq]
    rfl
  constructor
  · rw [view_of_slot (by rw [hentry]; exact hb), hentry, hdevice]
  · refine ⟨Or.inl ?_, ?_⟩
    · rw [hentry]
      exact hb
    · rw [hentry]
      exact hts

/-- **So does `read`, and it returns what is there.** -/
theorem read_view (hsize : objectSize < 2 ^ 31)
    (hfits : op.offset % objectSize + op.length ≤ objectSize) (h : Ready op.offset ts s)
    (data : Bytes) :
    ∃ s', read objectSize (s, data) op = some (s',
        memcpy data op.dataOff (view objectSize op.offset s).content 0 op.length)
      ∧ view objectSize op.offset s' = (view objectSize op.offset s).read
      ∧ Ready op.offset ts s' := by
  have hint : toInt op.length = op.length := toInt_of_lt (by omega)
  unfold SimpleBlockCacher.read
  dsimp only
  rw [if_pos hfits]
  rcases h.unset_or with hslot | ⟨hunset, hindex, hsupplied⟩
  · rw [if_pos (show (s.metaTbl op.offset).onDiskIndex ≠ -1 by omega), if_pos ⟨by omega, hslot⟩,
      view_of_slot hslot, touch_eq]
    refine ⟨_, congrArg some (Prod.ext rfl ?_), view_of_slot hslot, Or.inl hslot, h.inTime⟩
    exact (memcpy_window_src (by omega)).symm
  rw [if_neg (not_not.mpr hunset), view_of_unset hunset]
  have hdata : memcpy data op.dataOff s.backend op.offset op.length
      = memcpy data op.dataOff (window (objectSize - op.offset % objectSize) op.offset s.backend)
        0 op.length := (memcpy_window_src (by omega)).symm
  rw [hdata]
  refine ⟨_, rfl, ?_⟩
  rcases freeLookup_eq s with ⟨hnil, heq⟩ | ⟨b, rest, hcons, heq⟩
  · rw [heq, promote, if_neg (show ¬ (0 : Int) ≤ -1 by decide)]
    refine ⟨?_, h⟩
    rw [view_of_unset hunset, hnil]
    cases slotOnWrite op.offset s with
    | none | some b => rfl
  rw [heq]
  have hsupply : supply op.offset s = b :: supply op.offset { s with freeNodes := rest } :=
    congrArg (· ++ _) hcons
  by_cases hb : 0 ≤ b
  · rw [slotOnWrite_of_slot hsupply hb, hcons, findIdx?_cons, if_pos (decide_eq_true hb)]
    exact promote_view (s := { s with freeNodes := rest }) hint hb h.inTime
  -- an unset index is taken off the line
  rw [promote, if_neg hb, view_of_unset (s := { s with freeNodes := rest }) hunset, hcons,
    findIdx?_cons, if_neg (by simpa using hb)]
  rcases hsupplied with hsome | hbarren
  · obtain ⟨b', hfound⟩ := Option.isSome_iff_exists.mp hsome
    have hrest : slotOnWrite op.offset { s with freeNodes := rest } = some b' := by
      rw [slotOnWrite_of_blank hsupply hb] at hfound
      cases hs : supply op.offset { s with freeNodes := rest } with
      | nil => cases hs ▸ hfound
      | cons c l =>
        rw [hs, take_succ_cons, take_zero, find?_singleton] at hfound
        split at hfound
        · rename_i hc
          exact (slotOnWrite_of_slot hs (of_decide_eq_true hc)).trans hfound
        · cases hfound
    refine ⟨?_, Or.inr ⟨hindex, Or.inr (Or.inl (by rw [hrest]; rfl))⟩, h.inTime⟩
    rw [hrest, hfound]
    cases rest.findIdx? (0 ≤ ·) with
    | none | some misses => rfl
  · have hbarren' : ∀ b ∈ supply op.offset { s with freeNodes := rest }, b < 0 := fun b hb =>
      hbarren b (hsupply ▸ mem_cons_of_mem _ hb)
    refine ⟨?_, Or.inr ⟨hindex, Or.inr (Or.inr hbarren')⟩, h.inTime⟩
    rw [slotOnWrite_eq_none hbarren, slotOnWrite_eq_none hbarren']
    rfl

end HDCS.Proof
