import HDCS.Core.LruLinklist
import HDCS.Core.LruList

/-!
# The linked list is a sequence of keys

`Row l row` says that the nodes of `l`, from `head` to `tail`, are those of `row`:
addresses and keys in order, linked both ways, with the map and the length to
match. Every operation that keeps to the list finds what it needs and leaves a
row again, with the key moved to the front, put there, or taken out. So the list
stands for the sequence of its keys, and the operations are those on sequences
(`Represents.touchKey`, `Represents.remove`).

`get_head` finds the first key if there is one. On an empty list it follows the
null pointer in `head` (`Represents.getHead`).

`get_keys` follows the links from one end for as long as there are keys, so it copies
the first or the last of them (`Represents.getKeys`). Any sequence of calls does to the
linked list what it does to the sequence (`linkedList_refines`).
-/

namespace HDCS.Proof

open Lib DoublyLinked LruLinklist Function List

variable {α : Type}

structure Row (l : LruLinklist α) (row : List (Nat × α)) : Prop where
  seg : Seg l.heap none row none
  head : l.head = first none row
  tail : l.tail = last none row
  length : l.length = row.length
  addrs : (addrs row).Nodup
  keys : (keys row).Nodup
  point : ∀ k p, l.keyToPoint k = some p ↔ (p, k) ∈ row
  /-- Nodes are allocated where there are none. -/
  fresh : ∀ x ∈ row, x.1 < l.nextAddr

theorem row_new : Row (LruLinklist.new : LruLinklist α) [] where
  seg := trivial
  head := rfl
  tail := rfl
  length := rfl
  addrs := nodup_nil
  keys := nodup_nil
  point := fun _ _ => ⟨fun h => absurd h (by simp [LruLinklist.new]), nofun⟩
  fresh := fun _ h => nomatch h

section Heap

variable {l : LruLinklist α} {p : Nat} {node : LinkNode α} {x : Option Nat}

theorem setNext_eq (h : l.heap p = some node) : l.setNext p x
    = some { l with heap := update l.heap p (some { node with next := x }) } := by
  unfold LruLinklist.setNext
  rw [h]; rfl

theorem setPrev_eq (h : l.heap p = some node) : l.setPrev p x
    = some { l with heap := update l.heap p (some { node with prev := x }) } := by
  unfold LruLinklist.setPrev
  rw [h]; rfl

theorem putFirst_eq {w : Nat} {node' : LinkNode α} (hp : l.heap p = some node)
    (hw : l.heap w = some node') (hne : w ≠ p) : l.putFirst p w
    = some { l with
        head := some p
        heap := update (update l.heap p (some ⟨node.key, none, some w⟩)) w
          (some { node' with prev := some p }) } := by
  unfold LruLinklist.putFirst
  rw [setNext_eq (l := { l with head := some p }) hp]
  simp only [Option.bind_eq_bind, Option.bind_some]
  rw [setPrev_eq (update_self ..)]
  simp only [Option.bind_some, update_idem]
  exact setPrev_eq ((update_of_ne hne _ _).trans hw)

end Heap

section Parts

variable {l : LruLinklist α} {xs ys row : List (Nat × α)} {x y z : Nat × α} {q : Option Nat}

theorem Row.notMem (h : Row l (xs ++ x :: ys)) : x.1 ∉ DoublyLinked.addrs (xs ++ ys) := by
  have hn := h.addrs
  unfold DoublyLinked.addrs at hn ⊢
  rw [map_append, map_cons] at hn
  rw [map_append]
  exact (nodup_cons.mp (nodup_middle.mp hn)).1

theorem linkBack_spec (hxs : Seg l.heap none xs (first none ys)) (hys : Seg l.heap q ys none)
    (hn : (DoublyLinked.addrs (xs ++ ys)).Nodup) (ht : ys ≠ [] → l.tail = last none (xs ++ ys)) :
    ∃ l', l.linkBack (last none xs) (first none ys) = some l' ∧ Seg l'.heap none (xs ++ ys) none
      ∧ l' = { l with heap := l'.heap, tail := last none (xs ++ ys) }
      ∧ ∀ p ∉ DoublyLinked.addrs ys, l'.heap p = l.heap p := by
  cases ys with
  | nil =>
    refine ⟨_, rfl, ?_, ?_, fun _ _ => rfl⟩
    · rw [append_nil]; exact hxs
    · rw [append_nil]
  | cons y ys =>
    have hn' : y.1 ∉ DoublyLinked.addrs xs ∧ y.1 ∉ DoublyLinked.addrs ys := by
      unfold DoublyLinked.addrs at hn ⊢
      rw [map_append, map_cons] at hn
      have := (nodup_cons.mp (nodup_middle.mp hn)).1
      rw [mem_append, not_or] at this
      exact this
    refine ⟨_, setPrev_eq hys.1, ?_, ?_, ?_⟩
    · exact seg_append.mpr ⟨hxs.update_of_notMem hn'.1, hys.setPrev hn'.2⟩
    · rw [← ht (by simp)]
    · intro p hp
      unfold DoublyLinked.addrs at hp
      rw [map_cons, mem_cons, not_or] at hp
      exact update_of_ne hp.1 _ _

theorem Row.nodup_rest (h : Row l (xs ++ x :: ys)) :
    (DoublyLinked.addrs (xs ++ ys)).Nodup ∧ (DoublyLinked.keys (xs ++ ys)).Nodup := by
  have ha := h.addrs
  have hk := h.keys
  unfold DoublyLinked.addrs DoublyLinked.keys at *
  rw [map_append, map_cons] at ha hk
  rw [map_append, map_append]
  exact ⟨(nodup_cons.mp (nodup_middle.mp ha)).2, (nodup_cons.mp (nodup_middle.mp hk)).2⟩

theorem Row.key_notMem (h : Row l (xs ++ x :: ys)) : x.2 ∉ DoublyLinked.keys (xs ++ ys) := by
  have hk := h.keys
  unfold DoublyLinked.keys at hk ⊢
  rw [map_append, map_cons] at hk
  rw [map_append]
  exact (nodup_cons.mp (nodup_middle.mp hk)).1

theorem Row.head_ne (h : Row l (xs ++ z :: x :: ys)) : l.head ≠ some x.1 := by
  have hn := h.addrs
  rw [h.head, first_append]
  cases xs with
  | nil =>
    intro he
    unfold DoublyLinked.addrs at hn
    rw [nil_append, map_cons, map_cons, nodup_cons] at hn
    exact hn.1 (by rw [Option.some.inj he]; exact mem_cons_self)
  | cons w xs =>
    intro he
    unfold DoublyLinked.addrs at hn
    rw [cons_append, map_cons, nodup_cons] at hn
    refine hn.1 ?_
    rw [Option.some.inj he, map_append, map_cons, map_cons]
    simp

theorem Row.linkOn (h : Row l (xs ++ x :: ys)) :
    ∃ l', l.linkOn x.1 (last none xs) (first none ys) = some l'
      ∧ Seg l'.heap none xs (first none ys) ∧ Seg l'.heap (some x.1) ys none
      ∧ l' = { l with heap := l'.heap, head := first none (xs ++ ys) }
      ∧ ∀ p ∉ DoublyLinked.addrs xs, l'.heap p = l.heap p := by
  obtain ⟨hxs, _, hys⟩ := seg_append.mp h.seg
  unfold LruLinklist.linkOn
  rcases eq_nil_or_concat' xs with rfl | ⟨zs, z, rfl⟩
  · exact ⟨_, if_pos h.head, trivial, hys, rfl, fun _ _ => rfl⟩
  · obtain ⟨hna, _⟩ := h.nodup_rest
    have hz : z.1 ∉ DoublyLinked.addrs zs ∧ z.1 ∉ DoublyLinked.addrs ys := by
      unfold DoublyLinked.addrs at hna ⊢
      rw [append_assoc, singleton_append, map_append, map_cons] at hna
      have := (nodup_cons.mp (nodup_middle.mp hna)).1
      rw [mem_append, not_or] at this
      exact this
    have hhead := h.head
    rw [append_assoc, singleton_append] at h
    rw [if_neg h.head_ne, last_snoc, Option.bind_some, setNext_eq (seg_append.mp hxs).2.1]
    refine ⟨_, rfl, hxs.setNext hz.1, hys.update_of_notMem hz.2, ?_, ?_⟩
    · rw [hhead, first_append, first_append]
      cases zs <;> rfl
    · intro p hp
      unfold DoublyLinked.addrs at hp
      rw [map_append, mem_append, not_or] at hp
      exact update_of_ne (fun he => hp.2 (by rw [he]; simp)) _ _

theorem Row.unlink (h : Row l (xs ++ x :: ys)) :
    ∃ l₁ l₂, l.linkOn x.1 (last none xs) (first none ys) = some l₁
      ∧ l₁.linkBack (last none xs) (first none ys) = some l₂
      ∧ Seg l₂.heap none (xs ++ ys) none ∧ l₂.heap x.1 = l.heap x.1
      ∧ l₂ = { l with
          heap := l₂.heap, head := first none (xs ++ ys), tail := last none (xs ++ ys) } := by
  obtain ⟨hna, _⟩ := h.nodup_rest
  have hx := h.notMem
  unfold DoublyLinked.addrs at hx
  rw [map_append, mem_append, not_or] at hx
  obtain ⟨l₁, h₁, hxs, hys, heq₁, hframe₁⟩ := h.linkOn
  have ht : ys ≠ [] → l₁.tail = last none (xs ++ ys) := by
    intro hne
    rw [heq₁, h.tail, last_append, last_append]
    cases ys with
    | nil => exact absurd rfl hne
    | cons y ys => rfl
  obtain ⟨l₂, h₂, hseg, heq₂, hframe₂⟩ := linkBack_spec hxs hys hna ht
  refine ⟨l₁, l₂, h₁, h₂, hseg, (hframe₂ x.1 hx.2).trans (hframe₁ x.1 hx.1), ?_⟩
  rw [heq₂, heq₁]

end Parts

/-! ## What the operations do -/

section Operations

variable {l : LruLinklist α} {xs ys row : List (Nat × α)} {x : Nat × α} {k : α}

theorem Row.moveNode {w : Nat × α} (h : Row l (w :: xs ++ x :: ys)) :
    ∃ l', l.touchNode x.1 = some l' ∧ Row l' (x :: (w :: xs ++ ys)) := by
  obtain ⟨hna, hnk⟩ := h.nodup_rest
  have hx := h.notMem
  have hne : l.head ≠ some x.1 := by
    rw [h.head]
    exact fun he => hx (by rw [← Option.some.inj he]; exact mem_cons_self)
  have hhead : l.head = some w.1 := h.head
  obtain ⟨l₁, l₂, h₁, h₂, hseg, hnode, heq⟩ := h.unlink
  rw [h.seg.node] at hnode
  unfold LruLinklist.linkOn at h₁
  rw [if_neg hne] at h₁
  have hw : w.1 ∉ DoublyLinked.addrs (xs ++ ys) := (nodup_cons.mp hna).1
  have hwx : w.1 ≠ x.1 := fun he => hx (by rw [← he]; exact mem_cons_self)
  have htouch : l.touchNode x.1 = l₂.putFirst x.1 w.1 := by
    unfold LruLinklist.touchNode
    rw [if_neg hne]
    simp only [hhead, h.seg.node, Option.bind_eq_bind, Option.bind_some, h₁, h₂]
  refine ⟨_, htouch.trans (putFirst_eq hnode hseg.1 hwx), hseg.push hw hx, rfl, ?_, ?_, ?_, ?_,
    ?_, ?_⟩
  · show l₂.tail = _
    rw [heq]; rfl
  · show l₂.length = _
    have hlen : l₂.length = l.length := by rw [heq]
    rw [hlen, h.length]
    simp only [length_append, length_cons]
    omega
  · exact nodup_cons.mpr ⟨hx, hna⟩
  · exact nodup_cons.mpr ⟨h.key_notMem, hnk⟩
  · intro k p
    show l₂.keyToPoint k = some p ↔ _
    have hpoint : l₂.keyToPoint = l.keyToPoint := by rw [heq]
    rw [hpoint, h.point]
    exact perm_middle.mem_iff
  · intro y hy
    show y.1 < l₂.nextAddr
    have hnext : l₂.nextAddr = l.nextAddr := by rw [heq]
    rw [hnext]
    exact h.fresh y (perm_middle.mem_iff.mpr hy)

theorem Row.touchNode (h : Row l (xs ++ x :: ys)) :
    ∃ l', l.touchNode x.1 = some l' ∧ Row l' (x :: (xs ++ ys)) := by
  cases xs with
  | nil => exact ⟨l, if_pos h.head, h⟩
  | cons w xs => exact h.moveNode

theorem Row.find (h : Row l row) (k : α) :
    (∃ p xs ys, l.keyToPoint k = some p ∧ row = xs ++ (p, k) :: ys)
      ∨ l.keyToPoint k = none ∧ k ∉ DoublyLinked.keys row := by
  cases hk : l.keyToPoint k with
  | some p =>
    obtain ⟨xs, ys, hrow⟩ := append_of_mem ((h.point k p).mp hk)
    exact Or.inl ⟨p, xs, ys, rfl, hrow⟩
  | none =>
    refine Or.inr ⟨rfl, fun hm => ?_⟩
    obtain ⟨⟨p, k'⟩, hx, rfl⟩ := mem_map.mp hm
    rw [(h.point k' p).mpr hx] at hk
    cases hk

variable [DecidableEq α]

theorem Row.removeNode (h : Row l (xs ++ x :: ys)) :
    ∃ l', l.removeNode x.1 = some l' ∧ Row l' (xs ++ ys) := by
  obtain ⟨hna, hnk⟩ := h.nodup_rest
  obtain ⟨l₁, l₂, h₁, h₂, hseg, _, heq⟩ := h.unlink
  refine ⟨{ l₂ with
    length := l₂.length - 1
    keyToPoint := update l₂.keyToPoint x.2 none
    heap := update l₂.heap x.1 none }, ?_, ?_⟩
  · unfold LruLinklist.removeNode
    simp only [h.seg.node, Option.bind_eq_bind, Option.bind_some, h₁, h₂]
    rfl
  · refine ⟨hseg.update_of_notMem h.notMem, by rw [heq], by rw [heq], ?_, hna, hnk, ?_, ?_⟩
    · have hlen : l₂.length = l.length := by rw [heq]
      show l₂.length - 1 = _
      rw [hlen, h.length, length_append, length_append, length_cons]
      omega
    · intro k p
      have hpoint : l₂.keyToPoint = l.keyToPoint := by rw [heq]
      show update l₂.keyToPoint x.2 none k = some p ↔ _
      rw [hpoint]
      by_cases hk : k = x.2
      · subst hk
        rw [update_self]
        refine ⟨nofun, fun hm => ?_⟩
        exact absurd (mem_map_of_mem hm) h.key_notMem
      · rw [update_of_ne hk, h.point, mem_append, mem_append, mem_cons]
        refine or_congr_right (or_iff_right ?_)
        intro he
        exact hk (congrArg Prod.snd he)
    · intro y hy
      have hnext : l₂.nextAddr = l.nextAddr := by rw [heq]
      show y.1 < l₂.nextAddr
      rw [hnext]
      refine h.fresh y ?_
      rw [mem_append, mem_cons]
      exact (mem_append.mp hy).imp id Or.inr

theorem Row.insert (h : Row l row) (hk : k ∉ DoublyLinked.keys row) :
    ∃ l', l.insert k = some l' ∧ Row l' ((l.nextAddr, k) :: row) := by
  have hfresh : l.nextAddr ∉ DoublyLinked.addrs row := by
    intro hm
    obtain ⟨x, hx, he⟩ := mem_map.mp hm
    exact absurd (h.fresh x hx) (by rw [he]; exact Nat.lt_irrefl _)
  have hpoint : ∀ k' p, update l.keyToPoint k (some l.nextAddr) k' = some p
      ↔ (p, k') ∈ (l.nextAddr, k) :: row := by
    intro k' p
    rw [mem_cons, Prod.mk.injEq]
    by_cases he : k' = k
    · subst he
      rw [update_self]
      constructor
      · intro hp; exact Or.inl ⟨(Option.some.inj hp).symm, rfl⟩
      · rintro (⟨rfl, _⟩ | hm)
        · rfl
        · exact absurd (mem_map_of_mem hm) hk
    · rw [update_of_ne he, h.point]
      exact (or_iff_right fun hc => he hc.2).symm
  have hlt : ∀ x ∈ (l.nextAddr, k) :: row, x.1 < l.nextAddr + 1 := by
    intro x hx
    rcases mem_cons.mp hx with rfl | hx
    · exact Nat.lt_succ_self _
    · exact Nat.lt_succ_of_lt (h.fresh x hx)
  have hhead := h.head
  have haddrs : (DoublyLinked.addrs ((l.nextAddr, k) :: row)).Nodup :=
    nodup_cons.mpr ⟨hfresh, h.addrs⟩
  have hkeys : (DoublyLinked.keys ((l.nextAddr, k) :: row)).Nodup :=
    nodup_cons.mpr ⟨hk, h.keys⟩
  have hlen : l.length + 1 = ((l.nextAddr, k) :: row).length := by
    rw [length_cons, h.length]
  unfold LruLinklist.insert
  cases row with
  | nil =>
    rw [hhead]
    exact ⟨_, rfl, ⟨update_self .., trivial⟩, rfl, rfl, hlen, haddrs, hkeys, hpoint, hlt⟩
  | cons w row =>
    have hw : w.1 ∉ DoublyLinked.addrs row := (nodup_cons.mp h.addrs).1
    have hne : w.1 ≠ l.nextAddr := fun he => hfresh (by rw [← he]; exact mem_cons_self)
    have hnode := (update_of_ne hne (some ⟨k, none, l.head⟩) l.heap).trans h.seg.1
    rw [hhead] at hnode ⊢
    refine ⟨_, setPrev_eq hnode, h.seg.push hw hfresh, rfl, ?_, hlen, haddrs, hkeys, hpoint, hlt⟩
    exact h.tail

theorem Row.erase_keys (h : Row l (xs ++ x :: ys)) :
    (DoublyLinked.keys (xs ++ x :: ys)).erase x.2 = DoublyLinked.keys (xs ++ ys) := by
  have hx := h.key_notMem
  unfold DoublyLinked.keys at hx ⊢
  rw [map_append, mem_append, not_or] at hx
  rw [map_append, map_cons, erase_append_right _ hx.1, erase_cons_head, map_append]

end Operations

/-! ## The list and the sequence it stands for -/

/-- The keys of the list, from `head` to `tail`. -/
def Represents (l : LruLinklist α) (ks : List α) : Prop :=
  ∃ row, Row l row ∧ keys row = ks

theorem represents_new : Represents (LruLinklist.new : LruLinklist α) [] := ⟨[], row_new, rfl⟩

section Represents

variable {l : LruLinklist α} {ks : List α}

theorem Represents.getHead (h : Represents l ks) : l.getHead = LruList.getHead ks := by
  obtain ⟨row, hrow, rfl⟩ := h
  unfold LruLinklist.getHead
  rw [hrow.head]
  cases row with
  | nil => rfl
  | cons x row =>
    show (l.heap x.1).bind (fun node => some node.key) = some x.2
    rw [hrow.seg.1]
    rfl

theorem Represents.length (h : Represents l ks) : l.length = ks.length := by
  obtain ⟨row, hrow, rfl⟩ := h
  rw [hrow.length, DoublyLinked.keys, length_map]

theorem Represents.eq_nil (h : Represents l ks) (hl : l.length = 0) : ks = [] :=
  eq_nil_of_length_eq_zero (h.length.symm.trans hl)

variable [DecidableEq α]

/-- **`touch_key` never follows a bad pointer, and brings the key to the front.** -/
theorem Represents.touchKey (h : Represents l ks) (k : α) :
    ∃ l', l.touchKey k = some l' ∧ Represents l' (LruList.touchKey k ks) := by
  obtain ⟨row, hrow, rfl⟩ := h
  unfold LruLinklist.touchKey LruList.touchKey
  rcases hrow.find k with ⟨p, xs, ys, hp, rfl⟩ | ⟨hp, hk⟩
  · obtain ⟨l', hl', hrow'⟩ := hrow.touchNode
    refine ⟨l', by rw [hp]; exact hl', _, hrow', ?_⟩
    rw [hrow.erase_keys]
    rfl
  · obtain ⟨l', hl', hrow'⟩ := hrow.insert hk
    refine ⟨l', by rw [hp]; exact hl', _, hrow', ?_⟩
    rw [erase_of_not_mem hk]
    rfl

/-- **`remove` never follows a bad pointer, and takes the key out.** -/
theorem Represents.remove (h : Represents l ks) (k : α) :
    ∃ l', l.remove k = some l' ∧ Represents l' (LruList.remove k ks) := by
  obtain ⟨row, hrow, rfl⟩ := h
  unfold LruLinklist.remove LruList.remove
  rcases hrow.find k with ⟨p, xs, ys, hp, rfl⟩ | ⟨hp, hk⟩
  · obtain ⟨l', hl', hrow'⟩ := hrow.removeNode
    exact ⟨l', by rw [hp]; exact hl', _, hrow', hrow.erase_keys.symm⟩
  · exact ⟨l, by rw [hp], row, hrow, (erase_of_not_mem hk).symm⟩

end Represents

/-! ## Copying keys -/

section Copy

variable {β : Type} {put : α → β} {link : LinkNode α → Option Nat} {heap : Heap α}
  {l : LruLinklist α} {ks : List α}

theorem copyKeys_eq {requiredLen count : Nat} {src : Option Nat} (hpath : Path link heap src ks)
    (hcount : count < requiredLen) (dst : Nat) (mem : Nat → β) :
    copyKeys put link heap requiredLen ks.length count src dst mem
      = some (fill mem dst ((ks.take (requiredLen - count)).map put)) := by
  induction ks generalizing src count dst mem with
  | nil =>
    rw [take_nil, map_nil, fill_nil]
    rfl
  | cons k ks ih =>
    obtain ⟨p, node, rfl, hnode, rfl, hrest⟩ := hpath
    obtain ⟨n, hn⟩ : ∃ n, requiredLen - count = n + 1 := ⟨requiredLen - count - 1, by omega⟩
    rw [hn, take_succ_cons, map_cons, fill_cons, length_cons, copyKeys]
    simp only [Option.bind_eq_bind, Option.bind_some, hnode]
    split_ifs with henough
    · obtain rfl : n = 0 := by omega
      rw [take_zero, map_nil, fill_nil]
      rfl
    · rw [ih hrest (by omega), show requiredLen - (count + 1) = n by omega]

/-- **`get_keys` never follows a bad pointer, and copies the keys from the end it is asked for.** -/
theorem Represents.getKeys (h : Represents l ks) (dst requiredLen : Nat) (mostRecentTop : Bool)
    (mem : Nat → β) : l.getKeys put dst requiredLen mostRecentTop mem
      = some (fill mem dst ((LruList.getKeys requiredLen mostRecentTop ks).map put)) := by
  have hlength := h.length
  obtain ⟨row, hrow, rfl⟩ := h
  unfold LruLinklist.getKeys LruList.getKeys
  rw [hlength]
  by_cases hzero : requiredLen = 0
  · rw [if_pos hzero, hzero, take_zero, map_nil, fill_nil]
  rw [if_neg hzero]
  have hpos : 0 < requiredLen := Nat.pos_of_ne_zero hzero
  cases mostRecentTop with
  | true =>
    have hpath := hrow.seg.path_next
    rw [← hrow.head] at hpath
    exact copyKeys_eq hpath hpos dst mem
  | false =>
    have hpath := hrow.seg.path_prev
    rw [← hrow.tail] at hpath
    rw [if_neg Bool.false_ne_true, ← length_reverse]
    exact copyKeys_eq hpath hpos dst mem

end Copy

/-! ## Runs -/

/-- The pointers are those of a doubly linked list with these keys, from `head` to `tail`. -/
structure WellLinked (l : LruLinklist α) (ks : List α) : Prop where
  nodup : ks.Nodup
  length : l.length = ks.length
  domain : ∀ k, (l.keyToPoint k).isSome ↔ k ∈ ks
  node : ∀ k p, l.keyToPoint k = some p → ∃ node, l.heap p = some node ∧ node.key = k
  empty : (l.head = none ↔ ks = []) ∧ (l.tail = none ↔ ks = [])
  forward : Path LinkNode.next l.heap l.head ks
  backward : Path LinkNode.prev l.heap l.tail ks.reverse
  next_prev : ∀ k p node q, l.keyToPoint k = some p → l.heap p = some node → node.next = some q →
    ∃ node', l.heap q = some node' ∧ node'.prev = some p
  prev_next : ∀ k p node q, l.keyToPoint k = some p → l.heap p = some node → node.prev = some q →
    ∃ node', l.heap q = some node' ∧ node'.next = some p
  head_prev : ∀ p node, l.head = some p → l.heap p = some node → node.prev = none
  tail_next : ∀ p node, l.tail = some p → l.heap p = some node → node.next = none

section Links

variable {l : LruLinklist α} {row : List (Nat × α)} {p q : Nat} {k : α} {node : LinkNode α}

theorem Row.place (h : Row l row) (hk : l.keyToPoint k = some p) : ∃ xs ys,
    row = xs ++ (p, k) :: ys ∧ l.heap p = some ⟨k, last none xs, first none ys⟩ := by
  obtain ⟨xs, ys, rfl⟩ := append_of_mem ((h.point k p).mp hk)
  exact ⟨xs, ys, rfl, h.seg.node⟩

theorem Row.next_prev (h : Row l row) (hk : l.keyToPoint k = some p) (hp : l.heap p = some node)
    (hq : node.next = some q) : ∃ node', l.heap q = some node' ∧ node'.prev = some p := by
  obtain ⟨xs, ys, rfl, hnode⟩ := h.place hk
  obtain rfl := Option.some.inj (hp.symm.trans hnode)
  cases ys with
  | nil => exact (Option.some_ne_none _ hq.symm).elim
  | cons y ys =>
    obtain rfl : y.1 = q := Option.some.inj hq
    have hseg := h.seg
    rw [append_cons] at hseg
    exact ⟨_, hseg.node, last_snoc⟩

theorem Row.prev_next (h : Row l row) (hk : l.keyToPoint k = some p) (hp : l.heap p = some node)
    (hq : node.prev = some q) : ∃ node', l.heap q = some node' ∧ node'.next = some p := by
  obtain ⟨xs, ys, rfl, hnode⟩ := h.place hk
  obtain rfl := Option.some.inj (hp.symm.trans hnode)
  rcases eq_nil_or_concat' xs with rfl | ⟨zs, z, rfl⟩
  · exact (Option.some_ne_none _ hq.symm).elim
  · rw [last_snoc] at hq
    obtain rfl : z.1 = q := Option.some.inj hq
    have hseg := h.seg
    rw [append_assoc, singleton_append] at hseg
    exact ⟨_, hseg.node, rfl⟩

theorem Row.head_prev (h : Row l row) (hhead : l.head = some p) (hp : l.heap p = some node) :
    node.prev = none := by
  rw [h.head] at hhead
  cases row with
  | nil => exact (Option.some_ne_none _ hhead.symm).elim
  | cons x row =>
    obtain rfl : x.1 = p := Option.some.inj hhead
    rw [Option.some.inj (hp.symm.trans h.seg.1)]

theorem Row.tail_next (h : Row l row) (htail : l.tail = some p) (hp : l.heap p = some node) :
    node.next = none := by
  rw [h.tail] at htail
  rcases eq_nil_or_concat' row with rfl | ⟨xs, x, rfl⟩
  · exact (Option.some_ne_none _ htail.symm).elim
  · rw [last_snoc] at htail
    obtain rfl : x.1 = p := Option.some.inj htail
    rw [Option.some.inj (hp.symm.trans h.seg.node)]
    rfl

theorem Row.empty (h : Row l row) :
    (l.head = none ↔ DoublyLinked.keys row = [])
      ∧ (l.tail = none ↔ DoublyLinked.keys row = []) := by
  rw [h.head, h.tail]
  rcases eq_nil_or_concat' row with rfl | ⟨xs, x, rfl⟩
  · exact ⟨⟨fun _ => rfl, fun _ => rfl⟩, ⟨fun _ => rfl, fun _ => rfl⟩⟩
  · rw [last_snoc, first_append]
    have hne : DoublyLinked.keys (xs ++ [x]) ≠ [] := by simp [DoublyLinked.keys]
    have hfirst : first (first none [x]) xs ≠ none := by
      cases xs with
      | nil | cons y xs => exact Option.some_ne_none _
    exact ⟨iff_of_false hfirst hne, iff_of_false (Option.some_ne_none _) hne⟩

theorem Represents.linked {ks : List α} (h : Represents l ks) : WellLinked l ks := by
  have hlength := h.length
  obtain ⟨row, hrow, rfl⟩ := h
  refine ⟨hrow.keys, hlength, ?_, ?_, hrow.empty, ?_, ?_, fun _ _ _ _ => hrow.next_prev,
    fun _ _ _ _ => hrow.prev_next, fun _ _ => hrow.head_prev, fun _ _ => hrow.tail_next⟩
  · intro k
    rw [Option.isSome_iff_exists, DoublyLinked.keys, mem_map]
    constructor
    · rintro ⟨p, hp⟩
      exact ⟨(p, k), (hrow.point k p).mp hp, rfl⟩
    · rintro ⟨⟨p, k⟩, hx, rfl⟩
      exact ⟨p, (hrow.point k p).mpr hx⟩
  · intro k p hk
    obtain ⟨xs, ys, _, hnode⟩ := hrow.place hk
    exact ⟨_, hnode, rfl⟩
  · rw [hrow.head]
    exact hrow.seg.path_next
  · rw [hrow.tail]
    exact hrow.seg.path_prev

end Links

section Refines

variable [DecidableEq α]

theorem Represents.call {s : LruCaller (List α) α} {l : LruLinklist α} (h : Represents l s.list)
    (c : LruCall α) : ∃ l',
      LruLinklist.call { s with list := l } c = some { LruList.call s c with list := l' }
        ∧ Represents l' (LruList.call s c).list := by
  cases c with
  | touchKey k =>
    obtain ⟨l', hl', h'⟩ := h.touchKey k
    exact ⟨l', congrArg (Option.map _) hl', h'⟩
  | remove k =>
    obtain ⟨l', hl', h'⟩ := h.remove k
    exact ⟨l', congrArg (Option.map _) hl', h'⟩
  | getKeys dst requiredLen mostRecentTop =>
    have hkeys : l.getKeys id dst requiredLen mostRecentTop s.mem
        = some (fill s.mem dst (LruList.getKeys requiredLen mostRecentTop s.list)) := by
      rw [h.getKeys, map_id]
    exact ⟨l, congrArg (Option.map _) hkeys, h⟩
  | getLength =>
    refine ⟨l, ?_, h⟩
    unfold LruLinklist.call LruList.call LruLinklist.getLength
    rw [h.length]

theorem Represents.calls (cs : List (LruCall α)) {s : LruCaller (List α) α} {l : LruLinklist α}
    (h : Represents l s.list) : ∃ l', cs.foldlM LruLinklist.call { s with list := l }
        = some { cs.foldl LruList.call s with list := l' }
      ∧ Represents l' (cs.foldl LruList.call s).list := by
  induction cs generalizing s l with
  | nil => exact ⟨l, rfl, h⟩
  | cons c cs ih =>
    obtain ⟨l₁, hcall, h₁⟩ := h.call c
    obtain ⟨l₂, hcalls, h₂⟩ := ih h₁
    refine ⟨l₂, ?_, h₂⟩
    rw [foldlM_cons, hcall]
    exact hcalls

/-- **An LRU list is a sequence of distinct keys.** Whatever is called from the empty list on,
nothing follows a bad pointer, `get_keys` leaves in memory and `get_length` returns what they do for
the sequence, and the pointers are those of a linked list with the keys of the sequence. -/
theorem linkedList_refines (cs : List (LruCall α)) (mem : Nat → α) : ∃ l : LruLinklist α,
    cs.foldlM LruLinklist.call ⟨.new, mem, []⟩
        = some { cs.foldl LruList.call ⟨[], mem, []⟩ with list := l }
      ∧ WellLinked l (cs.foldl LruList.call ⟨[], mem, []⟩).list := by
  obtain ⟨l, hcalls, h⟩ :=
    Represents.calls cs (s := ⟨[], mem, []⟩) (represents_new : Represents LruLinklist.new [])
  exact ⟨l, hcalls, h.linked⟩

example (mem : Nat → Nat) :
    let s := [.touchKey 1, .touchKey 2, .touchKey 3, .touchKey 1, .remove 2, .getKeys 10 5 false,
      .getLength].foldl LruList.call ⟨[], mem, []⟩
    s.list = [1, 3] ∧ (s.mem 10, s.mem 11, s.mem 12) = (3, 1, mem 12) ∧ s.lengths = [2] := by
  exact ⟨rfl, rfl, rfl⟩

end Refines

end HDCS.Proof
