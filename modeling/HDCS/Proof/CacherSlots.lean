import HDCS.Core.CacherSlots
import HDCS.Lib.Counting

/-!
# The slots of the librbd cache are conserved while every `BLOCK` is as expected

A slot is in the free list, or the `on_disk_index` of a `BLOCK`, or held by an operation that
took it from the free list and has not passed it on. `Conserved` says that the links of the
free list lead through a list of slots and nothing else, and that for every slot there is
exactly one such place. Between `return_to_free` and `reset` of `do_evict` the slot is in two: it
is free, and still the index of the `BLOCK`. That index is not counted (`Resetting`).

An operation decides what to do with a slot under a lock that it does not keep, or under none. Where
it passes the slot on, the `BLOCK` may have got or lost one in the meantime. `AsExpected` says, for
each of these steps, what the `BLOCK` has to look like, and a step keeps the slots conserved
if and only if that is so (`conserved_step_iff`). It is not so for the first write of a `BLOCK`:
that one returns `-1` to the free list. Nor is it for a second `do_evict`.
-/

namespace HDCS.Proof

open Lib Lib.Machine SinglyLinked CacherSlots Function List

section

/-! ## The free list -/

variable {q : FreeList} {l l' : List (Nat × Int)} {x : Nat × Int} {p : Nat} {b : Int}

structure ListsFree (q : FreeList) (l : List (Nat × Int)) : Prop where
  leads : Leads q.nodes q.head l
  tail : q.tail = l.getLast?.map Prod.fst
  nodup : (l.map Prod.fst).Nodup

theorem leads_init {n : Nat} : ∀ {k i : Nat}, i + k = n →
    Leads (FreeList.init n).nodes (if k = 0 then none else some i)
      ((List.range' i k).map fun j => (j, (j : Int)))
  | 0, _, _ => rfl
  | k + 1, i, h => by
    have hnext : (if i < n - 1 then some (i + 1) else none)
        = if k = 0 then none else some (i + 1) := by
      by_cases hk : k = 0
      · rw [if_pos hk, if_neg (by omega)]
      · rw [if_neg hk, if_pos (by omega)]
    refine ⟨rfl, if k = 0 then none else some (i + 1), ?_, leads_init (by omega)⟩
    rw [← hnext]
    exact if_pos (show i < n by omega)

theorem listsFree_init {n : Nat} (hn : 1 ≤ n) :
    ListsFree (.init n) ((List.range' 0 n).map fun j => (j, (j : Int))) where
  leads := by
    have hleads := leads_init (Nat.zero_add n)
    rwa [if_neg (by omega)] at hleads
  tail := by
    obtain ⟨m, rfl⟩ : ∃ m, n = m + 1 := ⟨n - 1, by omega⟩
    rw [range'_1_concat, map_append, map_singleton, getLast?_concat, Nat.zero_add]
    rfl
  nodup := by
    rw [map_map]
    exact (map_id _).symm ▸ nodup_range'

theorem freeLookup_nil (h : ListsFree q []) : q.freeLookup = (-1, q) := by
  rw [FreeList.freeLookup, show q.head = none from h.leads]
  rfl

theorem freeLookup_cons (h : ListsFree q (x :: l)) :
    q.freeLookup.1 = x.2 ∧ ListsFree q.freeLookup.2 l := by
  obtain ⟨hhead, next, hx, hl⟩ := h.leads
  have hnodup := nodup_cons.mp h.nodup
  have hnodes : (fun p => if q.head = some p then none else q.nodes p)
      = update q.nodes x.1 none := by
    funext p
    rw [hhead, update_apply]
    simp only [Option.some.injEq, eq_comm]
  rw [FreeList.freeLookup, show q.head.bind q.nodes = some ⟨x.2, next⟩ by rw [hhead]; exact hx]
  refine ⟨rfl, ?_, ?_, hnodup.2⟩
  · dsimp only
    rw [hnodes]
    exact hl.update_of_notMem hnodup.1
  · dsimp only
    rw [h.tail, hhead]
    cases hlast : l.getLast? with
    | none =>
      rw [getLast?_eq_none_iff.mp hlast]
      exact if_pos rfl
    | some y =>
      have hy : y ∈ l := mem_of_getLast? hlast
      have hne : y.1 ≠ x.1 := fun he => hnodup.1 (he ▸ mem_map_of_mem hy)
      rw [getLast?_cons, hlast]
      exact if_neg fun he => hne (Option.some.inj he)

theorem listsFree_returnToFree (h : ListsFree q l) (hp : q.nodes p = none) :
    ListsFree (q.returnToFree p b) (l ++ [(p, b)]) := by
  have hnew : p ∉ l.map Prod.fst := by
    intro hmem
    obtain ⟨y, hy, rfl⟩ := mem_map.mp hmem
    exact h.leads.ne_none hy hp
  refine ⟨?_, by rw [getLast?_concat]; rfl, ?_⟩
  · rcases eq_nil_or_concat l with rfl | ⟨l, y, rfl⟩
    · have hhead : q.head = none := h.leads
      have htail : q.tail = none := h.tail
      rw [FreeList.returnToFree, hhead, htail]
      exact ⟨rfl, none, update_self .., rfl⟩
    · rw [concat_eq_append] at h hnew ⊢
      have hhead : q.head ≠ none := by
        intro hnone
        have hleads := h.leads
        rw [hnone] at hleads
        cases l with
        | nil | cons z l => exact absurd hleads.1 (by simp)
      have htail : q.tail = some y.1 := by rw [h.tail, getLast?_concat]; rfl
      have hne : y.1 ≠ p := by
        intro he
        exact hnew (he ▸ mem_map_of_mem (mem_append_right _ mem_cons_self))
      rw [FreeList.returnToFree, if_neg hhead, htail]
      have hleads : Leads (update q.nodes p (some ⟨b, none⟩)) q.head (l ++ [y]) :=
        h.leads.update_of_notMem hnew
      dsimp only [FreeList.linkTail]
      rw [hleads.last]
      exact hleads.concat (update_self ..) h.nodup hnew
  · rw [map_append, nodup_append]
    refine ⟨h.nodup, nodup_singleton _, fun a ha c hc hac => hnew ?_⟩
    obtain rfl : c = p := mem_singleton.mp hc
    exact hac ▸ ha

end

section

/-! ## The places of a slot -/

def held : RunningOp → Option Int
  | .writing _ _ blockId true | .settling _ blockId true => some blockId
  | .missed _ blockId => if 0 ≤ blockId then some blockId else none
  | _ => none

def heldSlots (s : CacherSlots) : List (Option Int) := s.running.map held

/-- A `do_evict` has given the slot of the `BLOCK` back, and is before its reset. -/
def Resetting (s : CacherSlots) (c : Nat) : Prop := .resets c ∈ s.running

instance (s : CacherSlots) (c : Nat) : Decidable (Resetting s c) :=
  inferInstanceAs (Decidable (_ ∈ _))

def ownedSlot (s : CacherSlots) (c : Nat) : Int :=
  if Resetting s c then -1 else (s.block c).onDiskIndex

def blockSlots (s : CacherSlots) : List Int := (List.range s.blocks.length).map (ownedSlot s)

structure OnePlaceEach (n : Nat) (free blocks : List Int) (holds : List (Option Int)) :
    Prop where
  once : ∀ b : Nat, b < n →
    free.count (b : Int) + blocks.count (b : Int) + holds.count (some (b : Int)) = 1
  isSlot : ∀ b ∈ free, 0 ≤ b ∧ b < n

/-- The slots are conserved. -/
def Conserved (n : Nat) (s : CacherSlots) : Prop :=
  ∃ l, ListsFree s.freeList l ∧ OnePlaceEach n (l.map Prod.snd) (blockSlots s) (heldSlots s)

def SlotOrUnset (n : Nat) (b : Int) : Prop := b = -1 ∨ 0 ≤ b ∧ b < n

structure Balanced (n : Nat) (given : List Int) (new old : Int) (had : Option Int) : Prop where
  isSlot : ∀ b ∈ given, 0 ≤ b ∧ b < n
  count : ∀ b : Nat, b < n → given.count (b : Int) + (if new = b then 1 else 0)
    = (if old = b then 1 else 0) + if had = some (b : Int) then 1 else 0

variable {n : Nat} {free blocks given : List Int} {holds : List (Option Int)} {i c : Nat}
  {b new old : Int} {had : Option Int}

theorem SlotOrUnset.iff_ne (h : SlotOrUnset n b) : (0 ≤ b ∧ b < n) ↔ b ≠ -1 := by
  constructor
  · intro hb
    omega
  · exact h.resolve_left

theorem OnePlaceEach.update_iff (h : OnePlaceEach n free blocks holds)
    (hold : blocks[c]? = some old) (hhad : holds[i]? = some had) :
    OnePlaceEach n (free ++ given) (blocks.set c new) (holds.set i none)
      ↔ Balanced n given new old had := by
  have hcount : ∀ b : Nat, b < n →
      ((free ++ given).count (b : Int) + (blocks.set c new).count (b : Int)
          + (holds.set i none).count (some (b : Int)) = 1
        ↔ given.count (b : Int) + (if new = b then 1 else 0)
          = (if old = b then 1 else 0) + if had = some (b : Int) then 1 else 0) := by
    intro b hb
    have honce := h.once b hb
    have hblocks := count_set_add (b : Int) new hold
    have hholds := count_set_add (some (b : Int)) none hhad
    rw [if_neg (Option.some_ne_none _).symm] at hholds
    rw [count_append]
    omega
  constructor
  · intro h'
    exact ⟨fun b hb => h'.isSlot b (mem_append_right _ hb),
      fun b hb => (hcount b hb).mp (h'.once b hb)⟩
  · intro h'
    refine ⟨fun b hb => (hcount b hb).mpr (h'.count b hb), fun b hb => ?_⟩
    rcases mem_append.mp hb with hb | hb
    · exact h.isSlot b hb
    · exact h'.isSlot b hb

theorem balanced_none : Balanced n [] old old none :=
  ⟨fun _ hb => absurd hb not_mem_nil, fun b _ => by
    rw [if_neg (Option.some_ne_none (b : Int)).symm, count_nil, Nat.zero_add, Nat.add_zero]⟩

theorem balanced_return_iff {x : Int} (hb : 0 ≤ b ∧ b < n) :
    Balanced n [x] old old (some b) ↔ x = b := by
  constructor
  · intro h
    have hcount := h.count b.toNat (by omega)
    rw [Int.toNat_of_nonneg hb.1, if_pos (show some b = some b from rfl), count_singleton] at hcount
    by_contra hne
    rw [if_neg (fun heq => hne (beq_iff_eq.mp heq))] at hcount
    omega
  · rintro rfl
    refine ⟨fun y hy => mem_singleton.mp hy ▸ hb, fun y _ => ?_⟩
    rw [count_singleton, Nat.add_comm]
    simp only [beq_iff_eq, Option.some.injEq]

theorem balanced_swap_iff : Balanced n [old] b old (some b) ↔ 0 ≤ old ∧ old < n := by
  constructor
  · intro h
    exact h.isSlot old mem_cons_self
  · intro h
    refine ⟨fun x hx => mem_singleton.mp hx ▸ h, fun x _ => ?_⟩
    rw [count_singleton]
    simp only [beq_iff_eq, Option.some.injEq]

theorem balanced_set_iff (hb : 0 ≤ b ∧ b < n) : Balanced n [] b old none ↔ old = b := by
  constructor
  · intro h
    have hcount := h.count b.toNat (by omega)
    rw [Int.toNat_of_nonneg hb.1, if_pos rfl, if_neg (Option.some_ne_none b).symm] at hcount
    by_contra hne
    rw [if_neg hne] at hcount
    cases hcount
  · rintro rfl
    exact balanced_none

theorem balanced_settle_iff (hold : SlotOrUnset n old) :
    Balanced n [] b old (some b) ↔ old = -1 := by
  constructor
  · intro h
    by_contra hne
    have hslot := hold.resolve_left hne
    have hcount := h.count old.toNat (by omega)
    rw [Int.toNat_of_nonneg hslot.1, if_pos (show old = old from rfl), count_nil] at hcount
    simp only [Option.some.injEq] at hcount
    omega
  · rintro rfl
    refine ⟨fun _ hx => absurd hx not_mem_nil, fun x _ => ?_⟩
    rw [count_nil, if_neg (show (-1 : Int) ≠ x by omega)]
    simp only [Option.some.injEq]

theorem not_balanced_lost (hb : 0 ≤ b ∧ b < n) : ¬ Balanced n [] old old (some b) := by
  intro h
  have hcount := h.count b.toNat (by omega)
  rw [Int.toNat_of_nonneg hb.1, if_pos (show some b = some b from rfl), count_nil] at hcount
  omega

theorem balanced_evict_iff : Balanced n [b] (-1) old none ↔ old = b ∧ 0 ≤ b ∧ b < n := by
  constructor
  · intro h
    have hb := h.isSlot b mem_cons_self
    have hcount := h.count b.toNat (by omega)
    rw [Int.toNat_of_nonneg hb.1, if_neg (Option.some_ne_none b).symm, count_singleton,
      if_pos (beq_self_eq_true b)] at hcount
    refine ⟨?_, hb⟩
    by_contra hne
    rw [if_neg hne] at hcount
    omega
  · rintro ⟨rfl, hb⟩
    refine ⟨fun x hx => mem_singleton.mp hx ▸ hb, fun x _ => ?_⟩
    rw [count_singleton, if_neg (show (-1 : Int) ≠ x by omega),
      if_neg (Option.some_ne_none (x : Int)).symm]
    simp only [beq_iff_eq]

end

section

/-! ## What is known of slots -/

def FitsSlots (n m : Nat) : RunningOp → Prop
  | .evicting c _ | .hit c | .miss c | .tests c _ | .evicts c | .resets c => c < m
  | .writing c _ b _ | .settling c b _ => c < m ∧ 0 ≤ b ∧ b < n
  | .reading c b | .haveRead c b | .missed c b | .returns c b => c < m ∧ SlotOrUnset n b
  | .done => True

structure SlotsOnly (n : Nat) (s : CacherSlots) : Prop where
  block : ∀ e ∈ s.blocks, SlotOrUnset n e.onDiskIndex
  running : ∀ r ∈ s.running, FitsSlots n s.blocks.length r

variable {n : Nat} {s s' : CacherSlots} {i c d newNode : Nat} {b ret : Int} {r r' : RunningOp}
  {entry : Block}

theorem FitsSlots.mono {m m' : Nat} (h : FitsSlots n m r) (hm : m ≤ m') : FitsSlots n m' r := by
  cases r with
  | writing c ts b appendWrite | settling c b taken | reading c b | haveRead c b | missed c b
  | returns c b => exact ⟨h.1.trans_le hm, h.2⟩
  | done => trivial
  | _ => exact Nat.lt_of_lt_of_le h hm

theorem SlotsOnly.onDiskIndex (h : SlotsOnly n s) (c : Nat) :
    SlotOrUnset n (s.block c).onDiskIndex := by
  rw [CacherSlots.block, getD_eq_getElem?_getD]
  cases hc : s.blocks[c]? with
  | none => exact Or.inl rfl
  | some entry => exact h.block entry (mem_of_getElem? hc)

theorem SlotsOnly.setBlock (h : SlotsOnly n s) (he : SlotOrUnset n entry.onDiskIndex) :
    SlotsOnly n (s.setBlock c entry) where
  block := forall_mem_set h.block he
  running := by
    rw [CacherSlots.setBlock, length_set]
    exact h.running

theorem SlotsOnly.begin (h : SlotsOnly n s) (hr : FitsSlots n s.blocks.length r) :
    SlotsOnly n (s.begin r) where
  block := h.block
  running := by
    intro x hx
    rcases mem_append.mp hx with hx | hx
    · exact h.running x hx
    · exact mem_singleton.mp hx ▸ hr

theorem SlotsOnly.setRunning (h : SlotsOnly n s) (hr : FitsSlots n s.blocks.length r) :
    SlotsOnly n (s.setRunning i r) :=
  ⟨h.block, forall_mem_set h.running hr⟩

theorem SlotsOnly.congr (h : SlotsOnly n s) (hblocks : s'.blocks = s.blocks)
    (hrunning : s'.running = s.running) : SlotsOnly n s' where
  block := hblocks ▸ h.block
  running := by
    rw [hrunning, hblocks]
    exact h.running

theorem SlotsOnly.newBlock (h : SlotsOnly n s) :
    SlotsOnly n { s with blocks := s.blocks ++ [{}] } where
  block := by
    intro e he
    rcases mem_append.mp he with he | he
    · exact h.block e he
    · exact mem_singleton.mp he ▸ Or.inl rfl
  running := by
    intro r hr
    have hlength : (s.blocks ++ [({} : Block)]).length = s.blocks.length + 1 := length_append
    rw [hlength]
    exact (h.running r hr).mono (Nat.le_succ _)

theorem SlotsOnly.of_getElem? (ho : SlotsOnly n s) (hi : s.running[i]? = some r) :
    FitsSlots n s.blocks.length r :=
  ho.running r (mem_of_getElem? hi)

/-! ## One step -/

theorem block_setBlock (hc : c < s.blocks.length) (entry : Block) (d : Nat) :
    (s.setBlock c entry).block d = if d = c then entry else s.block d := by
  rw [CacherSlots.block, CacherSlots.block, CacherSlots.setBlock, getD_eq_getElem?_getD,
    getD_eq_getElem?_getD, getElem?_set]
  by_cases hd : d = c
  · rw [if_pos hd, if_pos hd.symm, if_pos hc, Option.getD_some]
  · rw [if_neg hd, if_neg (Ne.symm hd)]

theorem setBlock_block (c : Nat) (s : CacherSlots) : s.setBlock c (s.block c) = s := by
  rw [CacherSlots.setBlock, CacherSlots.block, getD_eq_getElem?_getD]
  rcases Nat.lt_or_ge c s.blocks.length with hc | hc
  · rw [getElem?_eq_getElem hc, Option.getD_some, set_getElem_self]
  · rw [set_eq_of_length_le hc]

theorem resetting_setRunning (hi : s.running[i]? = some r) (hr : r ≠ .resets d) :
    Resetting (s.setRunning i r') d ↔ .resets d = r' ∨ Resetting s d :=
  mem_set_iff_of_ne hi hr

def resetsAny : RunningOp → Bool
  | .resets _ => true
  | _ => false

theorem ne_resets (h : resetsAny r = false) (d : Nat) : r ≠ .resets d := by
  rintro rfl
  exact Bool.noConfusion h

theorem resetting_begin (hr : resetsAny r = false) (d : Nat) :
    .resets d ∈ s.running ++ [r] ↔ Resetting s d := by
  rw [mem_append, mem_singleton]
  exact or_iff_left (Ne.symm (ne_resets hr d))

theorem resetting_goesOn (hi : s.running[i]? = some r) (hr : resetsAny r = false)
    (hr' : resetsAny r' = false) (d : Nat) : .resets d ∈ s.running.set i r' ↔ Resetting s d :=
  (mem_set_iff_of_ne hi (ne_resets hr d)).trans (or_iff_right (Ne.symm (ne_resets hr' d)))

theorem blockSlots_eq_set (hlength : s'.blocks.length = s.blocks.length)
    (hother : ∀ d, d ≠ c → ownedSlot s' d = ownedSlot s d) :
    blockSlots s' = (blockSlots s).set c (ownedSlot s' c) := by
  refine ext_getElem? fun d => ?_
  rw [blockSlots, blockSlots, hlength, getElem?_set, length_map, length_range]
  by_cases hd : d = c
  · subst hd
    rw [if_pos rfl, getElem?_map]
    by_cases hlt : d < s.blocks.length
    · rw [if_pos hlt, getElem?_range hlt]
      rfl
    · rw [if_neg hlt, getElem?_eq_none (by rw [length_range]; omega)]
      rfl
  · rw [if_neg (Ne.symm hd), getElem?_map, getElem?_map]
    refine Option.map_congr fun e he => ?_
    obtain ⟨hlt, hde⟩ := List.getElem?_eq_some_iff.mp he
    rw [getElem_range] at hde
    exact hother e (hde ▸ hd)

theorem blockSlots_congr (hlength : s'.blocks.length = s.blocks.length)
    (hsame : ∀ d, ownedSlot s' d = ownedSlot s d) : blockSlots s' = blockSlots s := by
  rw [blockSlots, blockSlots, hlength]
  exact map_congr_left fun d _ => hsame d

theorem blockSlots_getElem? (hc : c < s.blocks.length) :
    (blockSlots s)[c]? = some (ownedSlot s c) := by
  rw [blockSlots, getElem?_map, getElem?_range hc]
  rfl

theorem heldSlots_getElem? (hi : s.running[i]? = some r) : (heldSlots s)[i]? = some (held r) := by
  rw [heldSlots, getElem?_map, hi]
  rfl

theorem conserved_iff {l : List (Nat × Int)} (h : ListsFree s.freeList l) :
    Conserved n s ↔ OnePlaceEach n (l.map Prod.snd) (blockSlots s) (heldSlots s) := by
  constructor
  · intro ⟨l', h', hacc⟩
    rwa [h.leads.unique h'.leads]
  · intro hacc
    exact ⟨l, h, hacc⟩

theorem conserved_update_iff (given : List Int) (q : FreeList) (entry : Block) (r' : RunningOp)
    (h : Conserved n s) (hc : c < s.blocks.length) (hi : s.running[i]? = some r)
    (hr : ∀ d, d ≠ c → r ≠ .resets d) (hr' : ∀ d, d ≠ c → r' ≠ .resets d)
    (hheld : held r' = none)
    (hq : ∀ l, ListsFree s.freeList l →
      ∃ l', ListsFree q l' ∧ l'.map Prod.snd = l.map Prod.snd ++ given) :
    Conserved n (({ s with freeList := q }.setBlock c entry).setRunning i r')
      ↔ Balanced n given
        (if Resetting (s.setRunning i r') c then -1 else entry.onDiskIndex) (ownedSlot s c)
        (held r) := by
  obtain ⟨l, hl, hacc⟩ := h
  obtain ⟨l', hl', hgiven⟩ := hq l hl
  have hnew : ownedSlot (({ s with freeList := q }.setBlock c entry).setRunning i r') c
      = if Resetting (s.setRunning i r') c then -1 else entry.onDiskIndex := by
    have hblock : ((s.setBlock c entry).block c).onDiskIndex = entry.onDiskIndex := by
      rw [block_setBlock hc, if_pos rfl]
    exact if_congr Iff.rfl rfl hblock
  have hblocks : blockSlots (({ s with freeList := q }.setBlock c entry).setRunning i r')
      = (blockSlots s).set c
        (ownedSlot (({ s with freeList := q }.setBlock c entry).setRunning i r') c) := by
    refine blockSlots_eq_set length_set fun d hd => ?_
    have hblock : ((s.setBlock c entry).block d).onDiskIndex = (s.block d).onDiskIndex := by
      rw [block_setBlock hc, if_neg hd]
    have hsame : Resetting (s.setRunning i r') d ↔ Resetting s d :=
      (resetting_setRunning hi (hr d hd)).trans (or_iff_right (Ne.symm (hr' d hd)))
    exact if_congr hsame rfl hblock
  have hholds : heldSlots (({ s with freeList := q }.setBlock c entry).setRunning i r')
      = (heldSlots s).set i none := hheld ▸ map_set
  rw [conserved_iff (show ListsFree (CacherSlots.freeList _) l' from hl'), hblocks, hholds, hgiven,
    hnew]
  exact hacc.update_iff (blockSlots_getElem? hc) (heldSlots_getElem? hi)

theorem conserved_set_iff (h : Conserved n s) (hc : c < s.blocks.length)
    (hi : s.running[i]? = some r) (hr : resetsAny r = false) (entry : Block) :
    Conserved n ((s.setBlock c entry).setRunning i .done)
      ↔ Balanced n [] (if Resetting s c then -1 else entry.onDiskIndex) (ownedSlot s c)
        (held r) := by
  have hsame : Resetting (s.setRunning i .done) c ↔ Resetting s c :=
    resetting_goesOn hi hr rfl c
  rw [← if_congr hsame rfl rfl]
  exact conserved_update_iff [] s.freeList entry .done h hc hi (fun d _ => ne_resets hr d)
    (fun d _ => by simp) rfl fun l hl => ⟨l, hl, (append_nil _).symm⟩

theorem conserved_return_set_iff (h : Conserved n s) (hc : c < s.blocks.length)
    (hi : s.running[i]? = some r) (hr : resetsAny r = false)
    (hnew : s.freeList.nodes newNode = none) (entry : Block) :
    Conserved n (((s.returnToFree newNode b).setBlock c entry).setRunning i .done)
      ↔ Balanced n [b] (if Resetting s c then -1 else entry.onDiskIndex) (ownedSlot s c)
        (held r) := by
  have hsame : Resetting (s.setRunning i .done) c ↔ Resetting s c :=
    resetting_goesOn hi hr rfl c
  rw [← if_congr hsame rfl rfl]
  exact conserved_update_iff [b] (s.freeList.returnToFree newNode b) entry .done h hc hi
    (fun d _ => ne_resets hr d) (fun d _ => by simp) rfl
    fun l hl => ⟨_, listsFree_returnToFree hl hnew, map_append⟩

theorem conserved_return_iff (h : Conserved n s) (hc : c < s.blocks.length)
    (hi : s.running[i]? = some r) (hr : resetsAny r = false)
    (hnew : s.freeList.nodes newNode = none) :
    Conserved n ((s.returnToFree newNode b).setRunning i .done)
      ↔ Balanced n [b] (ownedSlot s c) (ownedSlot s c) (held r) := by
  have hself : (s.returnToFree newNode b).setBlock c (s.block c) = s.returnToFree newNode b :=
    setBlock_block c (s.returnToFree newNode b)
  have hiff := conserved_return_set_iff (b := b) h hc hi hr hnew (s.block c)
  rwa [hself] at hiff

theorem conserved_through_iff (h : Conserved n s) (hc : c < s.blocks.length)
    (hi : s.running[i]? = some r) (hr : resetsAny r = false) :
    Conserved n (s.setRunning i .done)
      ↔ Balanced n [] (ownedSlot s c) (ownedSlot s c) (held r) := by
  have hiff := conserved_set_iff h hc hi hr (s.block c)
  rwa [setBlock_block] at hiff

theorem Conserved.congr (h : Conserved n s) (hblocks : s'.blocks = s.blocks)
    (hfree : s'.freeList = s.freeList) (hrunning : s'.running = s.running) : Conserved n s' := by
  obtain ⟨l, hl, hacc⟩ := h
  refine ⟨l, hfree ▸ hl, ?_⟩
  have hslots : blockSlots s' = blockSlots s := by
    refine blockSlots_congr (by rw [hblocks]) fun d => if_congr ?_ rfl ?_
    · rw [Resetting, hrunning]
      rfl
    · rw [CacherSlots.block, hblocks]
      rfl
  rw [hslots, heldSlots, hrunning]
  exact hacc

theorem blockSlots_running {running : List RunningOp} {q : FreeList}
    (hsame : ∀ d, .resets d ∈ running ↔ Resetting s d) :
    blockSlots { s with freeList := q, running := running } = blockSlots s := by
  refine blockSlots_congr rfl fun d => ?_
  exact if_congr (hsame d) rfl rfl

theorem Conserved.begin (h : Conserved n s) (hr : held r = none) (hnone : resetsAny r = false) :
    Conserved n (s.begin r) := by
  obtain ⟨l, hl, hacc⟩ := h
  refine ⟨l, hl, fun b hb => ?_, hacc.isSlot⟩
  rw [show blockSlots (s.begin r) = blockSlots s from blockSlots_running (resetting_begin hnone),
    show heldSlots (s.begin r) = heldSlots s ++ [none] from hr ▸ map_append,
    count_append, count_singleton]
  exact hacc.once b hb

theorem Conserved.setRunning (h : Conserved n s) (hi : s.running[i]? = some r)
    (hr : held r' = held r) (hnone : resetsAny r = false) (hnone' : resetsAny r' = false) :
    Conserved n (s.setRunning i r') := by
  obtain ⟨l, hl, hacc⟩ := h
  have hheld : heldSlots (s.setRunning i r') = heldSlots s := map_set_eq hi hr
  have hblocks : blockSlots (s.setRunning i r') = blockSlots s :=
    blockSlots_running (resetting_goesOn hi hnone hnone')
  exact ⟨l, hl, hheld ▸ hblocks ▸ hacc⟩

theorem Conserved.freeLookup_cases (h : Conserved n s) :
    (s.freeSlot = -1 ∧ s.freeLookup = s)
      ∨ (0 ≤ s.freeSlot ∧ s.freeSlot < n) ∧ ∃ l, ListsFree s.freeLookup.freeList l
        ∧ OnePlaceEach n (s.freeSlot :: l.map Prod.snd) (blockSlots s) (heldSlots s) := by
  obtain ⟨l, hl, hacc⟩ := h
  cases l with
  | nil =>
    rw [freeSlot, CacherSlots.freeLookup, freeLookup_nil hl]
    exact Or.inl ⟨rfl, rfl⟩
  | cons x l =>
    obtain ⟨hslot, hrest⟩ := freeLookup_cons hl
    rw [show s.freeSlot = x.2 from hslot]
    exact Or.inr ⟨hacc.isSlot x.2 mem_cons_self, l, hrest, hacc⟩

theorem Conserved.begin_freeLookup (h : Conserved n s) (hslot : 0 ≤ s.freeSlot)
    (hr : held r = some s.freeSlot) (hnone : resetsAny r = false) :
    Conserved n (s.freeLookup.begin r) := by
  rcases h.freeLookup_cases with ⟨hneg, -⟩ | ⟨-, l, hl, hacc⟩
  · omega
  · refine ⟨l, hl, fun b hb => ?_, fun b hb => hacc.isSlot b (mem_cons_of_mem _ hb)⟩
    have honce := hacc.once b hb
    rw [count_cons] at honce
    rw [show heldSlots (s.freeLookup.begin r) = heldSlots s ++ [some s.freeSlot] from
      hr ▸ map_append, count_append, count_singleton]
    rw [show blockSlots (s.freeLookup.begin r) = blockSlots s from
      blockSlots_running (resetting_begin hnone)]
    simp only [beq_iff_eq, Option.some.injEq] at honce ⊢
    omega

theorem Conserved.setRunning_freeLookup (h : Conserved n s) (hslot : 0 ≤ s.freeSlot)
    (hi : s.running[i]? = some r) (hnone : held r = none) (hr : held r' = some s.freeSlot)
    (hreset : resetsAny r = false) (hreset' : resetsAny r' = false) :
    Conserved n (s.freeLookup.setRunning i r') := by
  rcases h.freeLookup_cases with ⟨hneg, -⟩ | ⟨-, l, hl, hacc⟩
  · omega
  · refine ⟨l, hl, fun b hb => ?_, fun b hb => hacc.isSlot b (mem_cons_of_mem _ hb)⟩
    have honce := hacc.once b hb
    have hholds := count_set_add (some (b : Int)) (some s.freeSlot) (heldSlots_getElem? hi)
    rw [hnone, if_neg (Option.some_ne_none (b : Int)).symm] at hholds
    rw [count_cons] at honce
    rw [show heldSlots (s.freeLookup.setRunning i r') = (heldSlots s).set i (some s.freeSlot) from
      hr ▸ map_set]
    rw [show blockSlots (s.freeLookup.setRunning i r') = blockSlots s from
      blockSlots_running (resetting_goesOn hi hreset hreset')]
    simp only [beq_iff_eq, Option.some.injEq] at honce hholds
    omega

theorem Conserved.setBlock (h : Conserved n s) (hc : c < s.blocks.length)
    (he : entry.onDiskIndex = (s.block c).onDiskIndex) : Conserved n (s.setBlock c entry) := by
  obtain ⟨l, hl, hacc⟩ := h
  have hblocks : blockSlots (s.setBlock c entry) = blockSlots s := by
    refine blockSlots_congr length_set fun d => ?_
    have hindex : ((s.setBlock c entry).block d).onDiskIndex = (s.block d).onDiskIndex := by
      rw [block_setBlock hc]
      split
      · rename_i hd
        rw [hd, he]
      · rfl
    rw [ownedSlot, ownedSlot, hindex]
    rfl
  exact ⟨l, hl, hblocks ▸ hacc⟩

theorem Conserved.newBlock (h : Conserved n s) :
    Conserved n { s with blocks := s.blocks ++ [{}] } := by
  obtain ⟨l, hl, hacc⟩ := h
  refine ⟨l, hl, fun b hb => ?_, hacc.isSlot⟩
  have hblocks : blockSlots { s with blocks := s.blocks ++ [{}] } = blockSlots s ++ [-1] := by
    rw [blockSlots, blockSlots, length_append, length_singleton, range_succ,
      map_append, map_singleton]
    congr 1
    · refine map_congr_left fun d hd => ?_
      rw [ownedSlot, ownedSlot, CacherSlots.block, CacherSlots.block, getD_eq_getElem?_getD,
        getD_eq_getElem?_getD, getElem?_append_left (mem_range.mp hd)]
      rfl
    · rw [ownedSlot, CacherSlots.block, getD_eq_getElem?_getD, getElem?_concat_length,
        Option.getD_some, ite_self]
  rw [hblocks, count_append, count_singleton,
    if_neg (show ¬ ((-1 : Int) == (b : Int)) = true by rw [beq_iff_eq]; omega)]
  exact hacc.once b hb

theorem conserved_startWrite {objectSize length ts : Nat} (h : Conserved n s) :
    Conserved n (s.startWrite objectSize c length ts) := by
  rw [startWrite]
  split_ifs with hplace hslot
  · exact h.begin rfl rfl
  · exact h.begin_freeLookup hslot rfl rfl
  · rcases h.freeLookup_cases with ⟨-, heq⟩ | ⟨hfound, -⟩
    · rw [heq]
      exact h.begin rfl rfl
    · exact absurd hfound.1 hslot

theorem conserved_lookAgain {ts : Nat} (h : Conserved n s)
    (hi : s.running[i]? = some (.evicting c ts)) : Conserved n (s.lookAgain i c ts) := by
  have hnone : resetsAny (.evicting c ts) = false := rfl
  rw [lookAgain]
  by_cases hslot : 0 ≤ s.freeSlot
  · rw [if_pos hslot]
    exact h.setRunning_freeLookup hslot hi rfl rfl hnone rfl
  · rcases h.freeLookup_cases with ⟨-, heq⟩ | ⟨hfound, -⟩
    · rw [if_neg hslot, heq]
      split_ifs
      · exact h.setRunning hi rfl hnone rfl
      · exact h.setRunning hi rfl hnone rfl
    · exact absurd hfound.1 hslot

theorem conserved_lookup (h : Conserved n s) (hi : s.running[i]? = some (.miss c)) :
    Conserved n (s.freeLookup.setRunning i (.missed c s.freeSlot)) := by
  have hnone : resetsAny (.miss c) = false := rfl
  by_cases hslot : 0 ≤ s.freeSlot
  · exact h.setRunning_freeLookup hslot hi rfl (if_pos hslot) hnone rfl
  · rcases h.freeLookup_cases with ⟨-, heq⟩ | ⟨hfound, -⟩
    · rw [heq]
      exact h.setRunning hi (if_neg hslot) hnone rfl
    · exact absurd hfound.1 hslot

theorem conserved_returned (h : Conserved n s) (hc : c < s.blocks.length) (hb : 0 ≤ b ∧ b < n)
    (hi : s.running[i]? = some r) (hr : held r = some b) (hnone : resetsAny r = false)
    (hnew : s.freeList.nodes newNode = none) :
    Conserved n ((s.returnToFree newNode b).setRunning i .done) := by
  rw [conserved_return_iff h hc hi hnone hnew, hr]
  exact (balanced_return_iff hb).mpr rfl

def Expects (s : CacherSlots) (ret : Int) : RunningOp → Prop
  | .writing c ts blockId appendWrite =>
    0 ≤ ret → (s.block c).tsWrite ≤ ts →
      if appendWrite then (s.block c).onDiskIndex ≠ -1
          ∧ (Resetting s c → (s.block c).onDiskIndex = blockId)
      else Resetting s c ∨ (s.block c).onDiskIndex = blockId
  | .haveRead c blockId => ret < 0 → 0 ≤ blockId → (s.block c).onDiskIndex ≠ -1
  | .missed c blockId => 0 ≤ blockId → (s.block c).onDiskIndex = -1
  | .settling c blockId taken =>
    if taken then ¬ Resetting s c ∧ (s.block c).onDiskIndex = -1
    else Resetting s c ∨ (s.block c).onDiskIndex = blockId
  | .returns c blockId => ¬ Resetting s c ∧ (s.block c).onDiskIndex = blockId ∧ blockId ≠ -1
  | _ => True

instance (s : CacherSlots) (ret : Int) : (r : RunningOp) → Decidable (Expects s ret r)
  | .writing _ _ _ _ => inferInstanceAs (Decidable (_ → _ → ite _ _ _))
  | .haveRead _ _ => inferInstanceAs (Decidable (_ → _ → _))
  | .missed _ _ => inferInstanceAs (Decidable (_ → _))
  | .settling _ _ _ => inferInstanceAs (Decidable (ite _ _ _))
  | .returns _ _ => inferInstanceAs (Decidable (_ ∧ _))
  | .evicting _ _ | .hit _ | .reading _ _ | .miss _ | .tests _ _ | .evicts _ | .resets _
  | .done => inferInstanceAs (Decidable True)

theorem conserved_setUsed_iff (h : Conserved n s) (hc : c < s.blocks.length) (hb : 0 ≤ b ∧ b < n)
    (hi : s.running[i]? = some r) (hr : resetsAny r = false) (hheld : held r = none)
    (he : entry.onDiskIndex = b) :
    Conserved n ((s.setBlock c entry).setRunning i .done)
      ↔ Resetting s c ∨ (s.block c).onDiskIndex = b := by
  rw [conserved_set_iff h hc hi hr, hheld, he, ownedSlot]
  by_cases hreset : Resetting s c
  · rw [if_pos hreset, if_pos hreset]
    exact iff_of_true balanced_none (Or.inl hreset)
  · rw [if_neg hreset, if_neg hreset, balanced_set_iff hb]
    exact (or_iff_right hreset).symm

theorem conserved_finishWrite_iff {ts : Nat} {appendWrite : Bool} (h : Conserved n s)
    (ho : SlotsOnly n s) (hi : s.running[i]? = some (.writing c ts b appendWrite))
    (hnew : s.freeList.nodes newNode = none) :
    Conserved n ((s.finishWrite c ts b appendWrite ret newNode).setRunning i .done)
      ↔ Expects s ret (.writing c ts b appendWrite) := by
  obtain ⟨hc, hb⟩ := ho.of_getElem? hi
  have hnone : resetsAny (.writing c ts b appendWrite) = false := rfl
  -- a failed or a late one returns what it holds
  have hback : Conserved n ((if appendWrite then s.returnToFree newNode b else s).setRunning i
      .done) := by
    cases appendWrite with
    | true => exact conserved_returned h hc hb hi rfl hnone hnew
    | false => exact h.setRunning hi rfl hnone rfl
  rw [finishWrite, Expects]
  by_cases hret : 0 ≤ ret
  · rw [if_pos hret]
    by_cases hlate : ts < (s.block c).tsWrite
    · rw [if_pos hlate]
      exact iff_of_true hback fun _ hts => absurd hlate (by omega)
    · have hts : (s.block c).tsWrite ≤ ts := by omega
      simp only [if_neg hlate, hret, hts, true_imp_iff]
      cases appendWrite with
      | true =>
        simp only [if_true]
        rw [conserved_return_set_iff h hc hi hnone hnew, held, ownedSlot]
        by_cases hreset : Resetting s c
        · rw [if_pos hreset, if_pos hreset, balanced_return_iff hb]
          simp only [hreset, true_imp_iff]
          exact ⟨fun heq => ⟨by omega, heq⟩, And.right⟩
        · rw [if_neg hreset, if_neg hreset, balanced_swap_iff]
          simp only [hreset, false_imp_iff, and_true]
          exact (ho.onDiskIndex c).iff_ne
      | false =>
        simp only [Bool.false_eq_true, if_false]
        exact conserved_setUsed_iff h hc hb hi hnone rfl rfl
  · rw [if_neg hret]
    exact iff_of_true hback fun hret' => absurd hret' hret

theorem conserved_finishRead_hit_iff (h : Conserved n s) (ho : SlotsOnly n s)
    (hi : s.running[i]? = some (.haveRead c b)) (hnew : s.freeList.nodes newNode = none) :
    Conserved n (s.finishRead i c b false ret newNode) ↔ Expects s ret (.haveRead c b) := by
  obtain ⟨hc, hslot⟩ := ho.of_getElem? hi
  have hnone : resetsAny (.haveRead c b) = false := rfl
  rw [finishRead, Expects]
  split_ifs with hok hunset hback
  · exact iff_of_true (h.setRunning hi rfl hnone rfl) fun hneg => by omega
  · exact iff_of_true (h.setRunning hi rfl hnone rfl) fun hneg => by omega
  · refine iff_of_false ?_ fun hne => hne hback.1 hback.2.2 hback.2.1
    rw [conserved_return_iff h hc hi hnone hnew, ownedSlot, hback.2.1, ite_self]
    intro htwice
    have heq := (balanced_evict_iff.mp htwice).1
    omega
  · refine iff_of_true (h.setRunning hi rfl hnone rfl) fun hneg hb hidx => ?_
    exact hback ⟨hneg, hidx, hb⟩

theorem conserved_finishRead_miss_iff (h : Conserved n s) (ho : SlotsOnly n s)
    (hi : s.running[i]? = some (.missed c b)) (hnew : s.freeList.nodes newNode = none) :
    Conserved n (s.finishRead i c b true ret newNode) ↔ Expects s ret (.missed c b) := by
  obtain ⟨hc, hslot⟩ := ho.of_getElem? hi
  have hnone : resetsAny (.missed c b) = false := rfl
  rw [finishRead, Expects]
  by_cases hb : 0 ≤ b
  · have hb' : 0 ≤ b ∧ b < n := hslot.resolve_left (by omega)
    have hheld : held (.missed c b) = some b := if_pos hb
    simp only [hb, true_imp_iff, and_true]
    by_cases hidx : (s.block c).onDiskIndex = -1
    · refine iff_of_true ?_ hidx
      simp only [hidx, if_true, and_true]
      split_ifs
      · exact h.setRunning hi hheld.symm hnone rfl
      · exact conserved_returned h hc hb' hi hheld hnone hnew
      · omega
    · refine iff_of_false ?_ hidx
      simp only [hidx, if_false, and_false, ite_self]
      rw [conserved_through_iff h hc hi hnone, hheld]
      exact not_balanced_lost hb'
  · have hheld : held (.missed c b) = none := if_neg hb
    simp only [hb, and_false, if_false, false_imp_iff, iff_true]
    exact h.setRunning hi hheld.symm hnone rfl

theorem conserved_settle_iff {taken : Bool} (h : Conserved n s) (ho : SlotsOnly n s)
    (hi : s.running[i]? = some (.settling c b taken)) :
    Conserved n ((s.setBlock c { s.block c with onDiskIndex := b }).setRunning i .done)
      ↔ Expects s ret (.settling c b taken) := by
  obtain ⟨hc, hb⟩ := ho.of_getElem? hi
  have hnone : resetsAny (.settling c b taken) = false := rfl
  cases taken with
  | false => exact conserved_setUsed_iff h hc hb hi hnone rfl rfl
  | true =>
    rw [conserved_set_iff h hc hi hnone, ownedSlot, held]
    by_cases hreset : Resetting s c
    · rw [if_pos hreset, if_pos hreset]
      exact iff_of_false (not_balanced_lost hb) fun hnot => hnot.1 hreset
    · rw [if_neg hreset, if_neg hreset, balanced_settle_iff (ho.onDiskIndex c)]
      exact (and_iff_right hreset).symm

theorem conserved_giveBack_iff (h : Conserved n s) (ho : SlotsOnly n s)
    (hi : s.running[i]? = some (.returns c b)) (hnew : s.freeList.nodes newNode = none) :
    Conserved n ((s.returnToFree newNode b).setRunning i (.resets c))
      ↔ Expects s ret (.returns c b) := by
  obtain ⟨hc, hslot⟩ := ho.of_getElem? hi
  have hiff := conserved_update_iff [b] (s.freeList.returnToFree newNode b) (s.block c) (.resets c)
    h hc hi (fun d _ => by simp) (fun d hd heq => hd (RunningOp.resets.inj heq).symm) rfl
    fun l hl => ⟨_, listsFree_returnToFree hl hnew, map_append⟩
  have hself : (s.returnToFree newNode b).setBlock c (s.block c) = s.returnToFree newNode b :=
    setBlock_block c (s.returnToFree newNode b)
  rw [if_pos ((resetting_setRunning hi (by simp)).mpr (Or.inl rfl))] at hiff
  refine (hself ▸ hiff).trans (balanced_evict_iff.trans ?_)
  rw [Expects, ownedSlot, hslot.iff_ne]
  by_cases hreset : Resetting s c
  · rw [if_pos hreset]
    exact iff_of_false (fun hand => hand.2 hand.1.symm) fun hnot => hnot.1 hreset
  · rw [if_neg hreset]
    exact (and_iff_right hreset).symm

theorem conserved_reset {now : Nat} (h : Conserved n s) (ho : SlotsOnly n s)
    (hi : s.running[i]? = some (.resets c)) :
    Conserved n ((s.setBlock c { tsFlush := now }).setRunning i .done) := by
  have hc : c < s.blocks.length := ho.of_getElem? hi
  refine (conserved_update_iff [] s.freeList { tsFlush := now } .done h hc hi
    (fun d hd heq => hd (RunningOp.resets.inj heq).symm) (fun d _ => by simp) rfl
    fun l hl => ⟨l, hl, (append_nil _).symm⟩).mpr ?_
  have hreset : Resetting s c := mem_of_getElem? hi
  rw [ownedSlot, if_pos hreset, ite_self]
  exact balanced_none

/-! ## What is known of slots stays so -/

theorem SlotsOnly.startWrite {objectSize length ts : Nat} (h : Conserved n s) (ho : SlotsOnly n s)
    (hc : c < s.blocks.length) : SlotsOnly n (s.startWrite objectSize c length ts) := by
  have hfree : SlotsOnly n s.freeLookup := ho.congr rfl rfl
  rw [CacherSlots.startWrite]
  split_ifs with hplace hslot
  · exact ho.begin ⟨hc, (ho.onDiskIndex c).resolve_left hplace.1⟩
  · rcases h.freeLookup_cases with ⟨hnone, -⟩ | ⟨hfound, -⟩
    · omega
    · exact hfree.begin ⟨hc, hfound⟩
  · exact hfree.begin hc

theorem SlotsOnly.lookAgain {ts : Nat} (h : Conserved n s) (ho : SlotsOnly n s)
    (hc : c < s.blocks.length) : SlotsOnly n (s.lookAgain i c ts) := by
  have hfree : SlotsOnly n s.freeLookup := ho.congr rfl rfl
  rw [CacherSlots.lookAgain]
  split_ifs with hslot hunset
  · rcases h.freeLookup_cases with ⟨hnone, -⟩ | ⟨hfound, -⟩
    · omega
    · exact hfree.setRunning ⟨hc, hfound⟩
  · exact hfree.setRunning trivial
  · exact hfree.setRunning ⟨hc, (ho.onDiskIndex c).resolve_left hunset⟩

theorem SlotsOnly.lookup (h : Conserved n s) (ho : SlotsOnly n s) (hc : c < s.blocks.length) :
    SlotsOnly n (s.freeLookup.setRunning i (.missed c s.freeSlot)) := by
  have hfree : SlotsOnly n s.freeLookup := ho.congr rfl rfl
  rcases h.freeLookup_cases with ⟨hnone, -⟩ | ⟨hfound, -⟩
  · exact hfree.setRunning ⟨hc, Or.inl hnone⟩
  · exact hfree.setRunning ⟨hc, Or.inr hfound⟩

theorem SlotsOnly.finishWrite {ts : Nat} {appendWrite : Bool} (ho : SlotsOnly n s)
    (hb : 0 ≤ b ∧ b < n) : SlotsOnly n (s.finishWrite c ts b appendWrite ret newNode) := by
  have hback : ∀ x, SlotsOnly n (s.returnToFree newNode x) := fun _ => ho.congr rfl rfl
  rw [CacherSlots.finishWrite]
  split_ifs
  · exact hback b
  · exact ho
  · exact (hback _).setBlock (Or.inr hb)
  · exact ho.setBlock (Or.inr hb)
  · exact hback b
  · exact ho

theorem SlotsOnly.finishRead {taken : Bool} (ho : SlotsOnly n s) (hc : c < s.blocks.length)
    (hb : SlotOrUnset n b) : SlotsOnly n (s.finishRead i c b taken ret newNode) := by
  rw [CacherSlots.finishRead]
  split_ifs with hok
  · exact ho.setRunning ⟨hc, hb.resolve_left (by omega)⟩
  · exact ho.setRunning trivial
  · have hfree : SlotsOnly n (s.returnToFree newNode b) := ho.congr rfl rfl
    exact hfree.setRunning trivial
  · exact ho.setRunning trivial

theorem startFlush_spec (s : CacherSlots) (c now : Nat) (ret : Int) :
    ∃ entry : Block, entry.onDiskIndex = (s.block c).onDiskIndex
      ∧ (s.startFlush c now ret).blocks = (s.setBlock c entry).blocks
      ∧ (s.startFlush c now ret).freeList = (s.setBlock c entry).freeList
      ∧ (s.startFlush c now ret).running = (s.setBlock c entry).running := by
  rw [CacherSlots.startFlush]
  split_ifs
  · refine ⟨_, ?_, rfl, rfl, rfl⟩
    rfl
  · refine ⟨_, ?_, rfl, rfl, rfl⟩
    rfl

theorem finishFlush_eq_setBlock (s : CacherSlots) (f : Flush) (ret : Int) :
    ∃ entry : Block, entry.onDiskIndex = (s.block f.c).onDiskIndex
      ∧ s.finishFlush f ret = s.setBlock f.c entry := by
  rw [CacherSlots.finishFlush]
  split_ifs
  · refine ⟨_, ?_, rfl⟩
    rfl
  · exact ⟨_, rfl, (setBlock_block f.c s).symm⟩
  · refine ⟨_, ?_, rfl⟩
    rfl
  · refine ⟨_, ?_, rfl⟩
    rfl

/-! ## Runs -/

def endsWith : Act → Option (Nat × Int)
  | .finishWrite i ret _ | .finishRead i ret _ => some (i, ret)
  | .settle i | .giveBack i _ => some (i, 0)
  | _ => none

/-- An operation that passes a slot on finds the `BLOCK` as it expects. -/
def AsExpected (s : CacherSlots) (a : Act) : Prop :=
  ∀ e ∈ endsWith a, ∀ r ∈ s.running[e.1]?, Expects s e.2 r

instance (s : CacherSlots) (a : Act) : Decidable (AsExpected s a) :=
  inferInstanceAs (Decidable (∀ e ∈ endsWith a, ∀ r ∈ s.running[e.1]?, Expects s e.2 r))

variable {objectSize : Nat} {a : Act}

theorem asExpected_iff (ha : endsWith a = some (i, ret)) (hi : s.running[i]? = some r) :
    AsExpected s a ↔ Expects s ret r := by
  rw [AsExpected, ha]
  simp only [Option.mem_def, Option.some.injEq, forall_eq', hi]

theorem asExpected_of_none (ha : endsWith a = none) : AsExpected s a := by
  intro e he
  rw [ha] at he
  cases he

/-- **A step keeps the slots conserved if and only if it finds the `BLOCK` as it expects.** -/
theorem conserved_step_iff (h : Conserved n s) (ho : SlotsOnly n s)
    (hs : step objectSize s a = some s') :
    SlotsOnly n s' ∧ (Conserved n s' ↔ AsExpected s a) := by
  cases a with
  | newBlock =>
    cases hs
    exact ⟨ho.newBlock, iff_of_true h.newBlock (asExpected_of_none rfl)⟩
  | write c length ts =>
    obtain ⟨⟨hc, -⟩, hs⟩ := Option.ite_none_right_eq_some.mp hs
    cases hs
    exact ⟨ho.startWrite h hc, iff_of_true (conserved_startWrite h) (asExpected_of_none rfl)⟩
  | lookAgain i =>
    simp only [step] at hs
    split at hs
    · rename_i c ts hi
      cases hs
      exact ⟨ho.lookAgain h (ho.of_getElem? hi),
        iff_of_true (conserved_lookAgain h hi) (asExpected_of_none rfl)⟩
    · cases hs
  | finishWrite i ret newNode =>
    simp only [step] at hs
    split at hs
    · rename_i c ts blockId appendWrite hi
      obtain ⟨⟨-, hnew⟩, hs⟩ := Option.ite_none_right_eq_some.mp hs
      cases hs
      exact ⟨(ho.finishWrite (ho.of_getElem? hi).2).setRunning trivial,
        (conserved_finishWrite_iff h ho hi hnew).trans (asExpected_iff rfl hi).symm⟩
    · cases hs
  | read c =>
    obtain ⟨hc, hs⟩ := Option.ite_none_right_eq_some.mp hs
    cases hs
    split_ifs
    · exact ⟨ho.begin hc, iff_of_true (h.begin rfl rfl) (asExpected_of_none rfl)⟩
    · exact ⟨ho.begin hc, iff_of_true (h.begin rfl rfl) (asExpected_of_none rfl)⟩
  | lock i =>
    simp only [step] at hs
    split at hs
    · rename_i c hi
      obtain ⟨-, hs⟩ := Option.ite_none_right_eq_some.mp hs
      cases hs
      exact ⟨ho.setRunning ⟨ho.of_getElem? hi, ho.onDiskIndex c⟩,
        iff_of_true (h.setRunning hi rfl rfl rfl) (asExpected_of_none rfl)⟩
    · cases hs
  | haveRead i =>
    simp only [step] at hs
    split at hs
    · rename_i c blockId hi
      cases hs
      have hfits := ho.of_getElem? hi
      exact ⟨ho.setRunning ⟨hfits.1, hfits.2⟩,
        iff_of_true (h.setRunning hi rfl rfl rfl) (asExpected_of_none rfl)⟩
    · cases hs
  | lookup i =>
    simp only [step] at hs
    split at hs
    · rename_i c hi
      cases hs
      exact ⟨ho.lookup h (ho.of_getElem? hi),
        iff_of_true (conserved_lookup h hi) (asExpected_of_none rfl)⟩
    · cases hs
  | finishRead i ret newNode =>
    simp only [step] at hs
    split at hs
    · rename_i c blockId hi
      obtain ⟨⟨hnew, -⟩, hs⟩ := Option.ite_none_right_eq_some.mp hs
      cases hs
      have hfits := ho.of_getElem? hi
      exact ⟨ho.finishRead hfits.1 hfits.2,
        (conserved_finishRead_hit_iff h ho hi hnew).trans (asExpected_iff rfl hi).symm⟩
    · rename_i c blockId hi
      obtain ⟨hnew, hs⟩ := Option.ite_none_right_eq_some.mp hs
      cases hs
      have hfits := ho.of_getElem? hi
      exact ⟨ho.finishRead hfits.1 hfits.2,
        (conserved_finishRead_miss_iff h ho hi hnew).trans (asExpected_iff rfl hi).symm⟩
    · cases hs
  | settle i =>
    simp only [step] at hs
    split at hs
    · rename_i c blockId taken hi
      obtain ⟨-, hs⟩ := Option.ite_none_right_eq_some.mp hs
      cases hs
      exact ⟨(ho.setBlock (Or.inr (ho.of_getElem? hi).2)).setRunning trivial,
        (conserved_settle_iff h ho hi).trans (asExpected_iff rfl hi).symm⟩
    · cases hs
  | evict c =>
    obtain ⟨⟨hc, -⟩, hs⟩ := Option.ite_none_right_eq_some.mp hs
    cases hs
    exact ⟨ho.begin hc, iff_of_true (h.begin rfl rfl) (asExpected_of_none rfl)⟩
  | evictTest i =>
    simp only [step] at hs
    split at hs
    · rename_i c k hi
      cases hs
      have hc : c < s.blocks.length := ho.of_getElem? hi
      rw [afterTest]
      split_ifs
      · exact ⟨ho.setRunning hc, iff_of_true (h.setRunning hi rfl rfl rfl) (asExpected_of_none rfl)⟩
      · exact ⟨ho.setRunning hc, iff_of_true (h.setRunning hi rfl rfl rfl) (asExpected_of_none rfl)⟩
      · exact ⟨ho.setRunning trivial, iff_of_true
          (h.setRunning hi rfl rfl rfl) (asExpected_of_none rfl)⟩
    · cases hs
  | readIndex i =>
    simp only [step] at hs
    split at hs
    · rename_i c hi
      cases hs
      exact ⟨ho.setRunning ⟨ho.of_getElem? hi, ho.onDiskIndex c⟩, iff_of_true
        (h.setRunning hi rfl rfl rfl) (asExpected_of_none rfl)⟩
    · cases hs
  | giveBack i newNode =>
    simp only [step] at hs
    split at hs
    · rename_i c blockId hi
      obtain ⟨hnew, hs⟩ := Option.ite_none_right_eq_some.mp hs
      cases hs
      have hfree : SlotsOnly n (s.returnToFree newNode blockId) := ho.congr rfl rfl
      exact ⟨hfree.setRunning (ho.of_getElem? hi).1,
        (conserved_giveBack_iff h ho hi hnew).trans (asExpected_iff rfl hi).symm⟩
    · cases hs
  | reset i now =>
    simp only [step] at hs
    split at hs
    · rename_i c hi
      cases hs
      exact ⟨(ho.setBlock (Or.inl rfl)).setRunning trivial,
        iff_of_true (conserved_reset h ho hi) (asExpected_of_none rfl)⟩
    · cases hs
  | flush c now ret =>
    obtain ⟨⟨hc, -⟩, hs⟩ := Option.ite_none_right_eq_some.mp hs
    cases hs
    obtain ⟨entry, hentry, hblocks, hfree, hrunning⟩ := startFlush_spec s c now ret
    exact ⟨(ho.setBlock (hentry ▸ ho.onDiskIndex c)).congr hblocks hrunning,
      iff_of_true ((h.setBlock hc hentry).congr hblocks hfree hrunning) (asExpected_of_none rfl)⟩
  | finishFlush i ret =>
    simp only [step] at hs
    split at hs
    · rename_i f hf
      obtain ⟨-, hs⟩ := Option.ite_none_right_eq_some.mp hs
      cases hs
      obtain ⟨entry, hentry, heq⟩ := finishFlush_eq_setBlock s f ret
      rw [heq]
      refine ⟨(ho.setBlock (hentry ▸ ho.onDiskIndex f.c)).congr rfl rfl,
        iff_of_true (Conserved.congr ?_ rfl rfl rfl) (asExpected_of_none rfl)⟩
      by_cases hc : f.c < s.blocks.length
      · exact h.setBlock hc hentry
      · rw [CacherSlots.setBlock, set_eq_of_length_le (Nat.le_of_not_lt hc)]
        exact h
    · cases hs

theorem conserved_start (hn : 1 ≤ n) : Conserved n (start n) := by
  refine ⟨_, listsFree_init hn, ?_⟩
  have hvalues : ((List.range' 0 n).map fun j : Nat => (j, (j : Int))).map Prod.snd
      = (List.range' 0 n).map (Nat.cast : Nat → Int) := map_map
  rw [hvalues]
  refine ⟨fun b hb => ?_, fun b hb => ?_⟩
  · have hcount : ((List.range' 0 n).map (Nat.cast : Nat → Int)).count (b : Int) = 1 := by
      have hnodup : ((List.range' 0 n).map (Nat.cast : Nat → Int)).Nodup :=
        List.Nodup.map (fun _ _ => Int.ofNat.inj) nodup_range'
      refine count_eq_one_of_mem hnodup ?_
      exact mem_map_of_mem (mem_range'_1.mpr ⟨Nat.zero_le b, by omega⟩)
    rw [hcount]
    rfl
  · obtain ⟨j, hj, rfl⟩ := mem_map.mp hb
    have hlt := mem_range'_1.mp hj
    omega

theorem slotsOnly_start : SlotsOnly n (start n) :=
  ⟨fun _ he => absurd he not_mem_nil, fun _ hr => absurd hr not_mem_nil⟩

theorem conserved_of_reachable (hn : 1 ≤ n)
    (hs : Reachable (step objectSize) AsExpected (start n) s) : Conserved n s ∧ SlotsOnly n s := by
  refine hs.invariant (I := fun s => Conserved n s ∧ SlotsOnly n s)
    ⟨conserved_start hn, slotsOnly_start⟩ ?_
  intro s a s' h ha hs
  obtain ⟨ho, hiff⟩ := conserved_step_iff h.1 h.2 hs
  exact ⟨hiff.mpr ha, ho⟩

def slotRound : List Act :=
  [.newBlock, .read 0, .lookup 0, .finishRead 0 0 2, .settle 0, .write 0 2 5, .finishWrite 1 0 2,
    .write 0 4 6, .finishWrite 2 0 2, .write 0 4 3, .finishWrite 3 0 3, .write 0 4 7,
    .finishWrite 4 (-5) 4, .flush 0 8 0, .finishFlush 0 0, .evict 0, .evictTest 5, .evictTest 5,
    .evictTest 5, .readIndex 5, .giveBack 5 5, .reset 5 9]

theorem exists_not_conserved (objectSize : Nat) {p : CacherSlots → Bool} (hn : 1 ≤ n)
    (as : List Act) (a : Act)
    (hrun : ((run (step objectSize) AsExpected (start n) as).bind fun s =>
      if AsExpected s a then none else step objectSize s a).map p = some true) :
    ∃ s, Reachable (step objectSize) Unrestricted (start n) s ∧ ¬ Conserved n s ∧ p s = true := by
  obtain ⟨s', hs', hp⟩ := Option.map_eq_some_iff.mp hrun
  obtain ⟨s, hs, hlast⟩ := Option.bind_eq_some_iff.mp hs'
  obtain ⟨hnot, hstep⟩ := Option.ite_none_left_eq_some.mp hlast
  have hreach : Reachable (step objectSize) AsExpected (start n) s := Reachable.of_run .init hs
  obtain ⟨h, ho⟩ := conserved_of_reachable hn hreach
  exact ⟨s', .tail hreach.unrestricted trivial hstep,
    fun h' => hnot ((conserved_step_iff h ho hstep).2.mp h'), hp⟩

def promoted : List Act := [.newBlock, .read 0, .lookup 0, .finishRead 0 0 1, .settle 0]

def evictTo (i newNode : Nat) : List Act :=
  [.evictTest i, .evictTest i, .evictTest i, .readIndex i, .giveBack i newNode]

end

end HDCS.Proof
