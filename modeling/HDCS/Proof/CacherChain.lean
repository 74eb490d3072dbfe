import Mathlib.Data.Nat.Find
import HDCS.Proof.EntryView

/-!
# Which writes of a chain may be left out

`handle_request` leaves out a write if the next piece of its chain is a write. Both start at
the same offset, but the second may be shorter, and then the rest of the first is lost.

A byte is live before the pieces that are still to come if the first of them that reaches it is
a read, or none does: then it is what the entry holds in the end. Where every byte of
every write that is left out is dead, the chain has the same effect as all pieces in order, and
where one is live there are bytes for which it has not. The two executions need not even use the
same slots: what they agree on is the live bytes of the views.

That is so as long as a write to the entry would find a slot, or nobody would. Otherwise there
are unset indices in the free list, and a write that is left out does not take them off: the
next one then goes around the cache where it would have found a slot, or finds another one.
For such a state there is a chain of writes with dead bytes only that goes wrong
(`dropping_harmless_iff`).
-/

namespace HDCS.Proof

open Lib SimpleBlockCacher CacherChain Function List

variable {objectSize offset n : Nat} {requests : Nat → Req}

/-! ## The hints -/

def WellMarked (requests : Nat → Req) : List (PendingOp × Bool) → Prop
  | [] => True
  | x :: l => (x.2 = true → (requests x.1.req).ioType = .write
      ∧ ∃ next rest, l.map Prod.fst = next :: rest ∧ (requests next.req).ioType = .write)
    ∧ WellMarked requests l

theorem length_foldr_setHint (ioTypes : List ReqType) :
    (ioTypes.foldr setHint (false, [])).2.length = ioTypes.length := by
  induction ioTypes with
  | nil => rfl
  | cons ioType ioTypes ih =>
    rw [foldr_cons]
    exact congrArg (· + 1) ih

theorem length_hints (ioTypes : List ReqType) : (hints ioTypes).length = ioTypes.length := by
  rw [hints]
  split_ifs
  · exact length_map _
  · exact length_foldr_setHint ioTypes

theorem map_fst_hinted (requests : Nat → Req) (chain : List PendingOp) :
    (hinted requests chain).map Prod.fst = chain := by
  refine map_fst_zip (Nat.le_of_eq ?_)
  rw [length_hints, length_map]

theorem foldr_setHint_fst {ioTypes : List ReqType}
    (h : (ioTypes.foldr setHint (false, [])).1 = true) : ∃ rest, ioTypes = .write :: rest := by
  cases ioTypes with
  | nil => cases h
  | cons ioType ioTypes =>
    cases ioType with
    | read => cases h
    | write => exact ⟨ioTypes, rfl⟩

theorem wellMarked_of_false :
    ∀ {l : List (PendingOp × Bool)}, (∀ x ∈ l, x.2 = false) → WellMarked requests l
  | [], _ => trivial
  | x :: l, h =>
    ⟨fun hx => absurd (h x mem_cons_self) (by rw [hx]; simp),
      wellMarked_of_false fun y hy => h y (mem_cons_of_mem x hy)⟩

theorem wellMarked_foldr (chain : List PendingOp) :
    WellMarked requests (chain.zip
      ((chain.map fun op => (requests op.req).ioType).foldr setHint (false, [])).2) := by
  induction chain with
  | nil => trivial
  | cons op chain ih =>
    refine ⟨fun hhint => ?_, ih⟩
    dsimp only at hhint
    split at hhint
    · cases hhint
    rename_i htype
    have hwrite : (requests op.req).ioType = .write := by
      cases h : (requests op.req).ioType with
      | read => exact absurd h htype
      | write => rfl
    obtain ⟨rest, hrest⟩ := foldr_setHint_fst hhint
    obtain ⟨next, chain', hchain, hnext, -⟩ := map_eq_cons_iff.mp hrest
    refine ⟨hwrite, next, chain', ?_, hnext⟩
    rw [← hchain]
    refine map_fst_zip (Nat.le_of_eq ?_)
    rw [length_foldr_setHint, length_map]

theorem wellMarked_hinted (requests : Nat → Req) (chain : List PendingOp) :
    WellMarked requests (hinted requests chain) := by
  rw [hinted, hints]
  split_ifs
  · refine wellMarked_of_false fun x hx => ?_
    obtain ⟨-, hhint⟩ := of_mem_zip hx
    obtain ⟨-, -, heq⟩ := mem_map.mp hhint
    exact heq.symm
  · exact wellMarked_foldr chain

/-! ## Live bytes -/

def live (requests : Nat → Req) : List PendingOp → Nat → Bool
  | [], _ => true
  | op :: rest, p =>
    if p < op.length then (requests op.req).ioType = .read else live requests rest p

/-- No byte of a write that is left out is live behind it. -/
def DeadStores (requests : Nat → Req) : List (PendingOp × Bool) → Prop
  | [] => True
  | x :: l => (x.2 = true → ∀ p < x.1.length, live requests (l.map Prod.fst) p = false)
    ∧ DeadStores requests l

instance DeadStores.decidable (requests : Nat → Req) :
    (l : List (PendingOp × Bool)) → Decidable (DeadStores requests l)
  | [] => inferInstanceAs (Decidable True)
  | x :: l =>
    have := DeadStores.decidable requests l
    inferInstanceAs (Decidable ((x.2 = true → ∀ p < x.1.length,
      live requests (l.map Prod.fst) p = false) ∧ DeadStores requests l))

def SameLive (requests : Nat → Req) (n : Nat) (rest : List PendingOp) (c c' : Bytes) : Prop :=
  ∀ p < n, live requests rest p = true → c p = c' p

variable {op : PendingOp} {rest : List PendingOp} {c c' buf : Bytes} {dataOff : Nat}

theorem live_of_ge {p : Nat} (h : op.length ≤ p) :
    live requests (op :: rest) p = live requests rest p := if_neg (Nat.not_lt.mpr h)

theorem live_of_lt {p : Nat} (h : p < op.length) :
    live requests (op :: rest) p = decide ((requests op.req).ioType = .read) := if_pos h

theorem SameLive.write (h : SameLive requests n (op :: rest) c c') :
    SameLive requests n rest (memcpy c 0 buf dataOff op.length)
      (memcpy c' 0 buf dataOff op.length) := by
  intro p hp hlive
  by_cases hlt : p < op.length
  · rw [memcpy_of_mem (Nat.zero_le p) (by omega), memcpy_of_mem (Nat.zero_le p) (by omega)]
  · rw [memcpy_of_not_mem (by omega), memcpy_of_not_mem (by omega)]
    exact h p hp ((live_of_ge (by omega)).trans hlive)

theorem SameLive.skip (h : SameLive requests n (op :: rest) c c')
    (hdead : ∀ p < op.length, live requests rest p = false) :
    SameLive requests n rest (memcpy c 0 buf dataOff op.length) c' := by
  intro p hp hlive
  by_cases hlt : p < op.length
  · exact absurd hlive (by rw [hdead p hlt]; simp)
  · rw [memcpy_of_not_mem (by omega)]
    exact h p hp ((live_of_ge (by omega)).trans hlive)

theorem SameLive.read (h : SameLive requests n (op :: rest) c c')
    (hread : (requests op.req).ioType = .read) (hn : op.length ≤ n) :
    (∀ p < op.length, c p = c' p) ∧ SameLive requests n rest c c' := by
  have hlt : ∀ p < op.length, c p = c' p := fun p hp =>
    h p (Nat.lt_of_lt_of_le hp hn) ((live_of_lt hp).trans (decide_eq_true hread))
  refine ⟨hlt, fun p hp hlive => ?_⟩
  by_cases hp' : p < op.length
  · exact hlt p hp'
  · exact h p hp ((live_of_ge (by omega)).trans hlive)

/-! ## The chain on views -/

def EntryView.doOp (requests : Nat → Req) (x : EntryView × (Nat → Bytes)) (op : PendingOp)
    (hint : Bool) : EntryView × (Nat → Bytes) :=
  if hint then x
  else
    match (requests op.req).ioType with
    | .read => (x.1.read, update x.2 op.req
        (memcpy (x.2 op.req) op.dataOff x.1.content 0 op.length))
    | .write => (x.1.write (x.2 op.req) op.dataOff op.length, x.2)

def EntryView.doOps (requests : Nat → Req) (x : EntryView × (Nat → Bytes)) :
    List (PendingOp × Bool) → EntryView × (Nat → Bytes)
  | [] => x
  | y :: l => EntryView.doOps requests (EntryView.doOp requests x y.1 y.2) l

/-- The pieces of one entry, each of another request, in the order of their times. -/
structure ChainOf (objectSize offset : Nat) (requests : Nat → Req) (chain : List PendingOp) :
    Prop where
  offset_eq : ∀ op ∈ chain, op.offset = offset
  fits : ∀ op ∈ chain, offset % objectSize + op.length ≤ objectSize
  reqs : (chain.map PendingOp.req).Nodup
  times : (chain.map fun op => (requests op.req).ts).Pairwise (· ≤ ·)

theorem ChainOf.tail (h : ChainOf objectSize offset requests (op :: rest)) :
    ChainOf objectSize offset requests rest where
  offset_eq := fun x hx => h.offset_eq x (mem_cons_of_mem op hx)
  fits := fun x hx => h.fits x (mem_cons_of_mem op hx)
  reqs := (nodup_cons.mp h.reqs).2
  times := (pairwise_cons.mp h.times).2

theorem Ready.mono {ts ts' : Nat} {s : SimpleBlockCacher} (h : Ready offset ts s) (hts : ts ≤ ts') :
    Ready offset ts' s :=
  ⟨h.slot, h.inTime.trans hts⟩

theorem doOp_view (hsize : objectSize < 2 ^ 31) (hoffset : op.offset = offset)
    (hfits : offset % objectSize + op.length ≤ objectSize) {s : SimpleBlockCacher}
    (h : Ready offset (requests op.req).ts s) (data : Nat → Bytes) (now : Nat) (hint : Bool) :
    ∃ s' data', doOp objectSize requests now (s, data) op hint = some (s', data')
      ∧ EntryView.doOp requests (view objectSize offset s, data) op hint
        = (view objectSize offset s', data')
      ∧ Ready offset (requests op.req).ts s' := by
  subst hoffset
  rw [doOp, EntryView.doOp]
  cases hint with
  | true => exact ⟨s, data, rfl, rfl, h⟩
  | false =>
    simp only [Bool.false_eq_true, if_false]
    cases (requests op.req).ioType with
    | read =>
      obtain ⟨s', hread, hview, hready⟩ := read_view hsize hfits h (data op.req)
      rw [hread, ← hview]
      exact ⟨s', _, rfl, rfl, hready⟩
    | write =>
      obtain ⟨s', hwrite, hview, hready⟩ := write_view hsize hfits h (data op.req) now
      rw [hwrite, ← hview]
      exact ⟨s', data, rfl, rfl, hready⟩

/-- **The chain does to the view what `EntryView.doOps` says.** -/
theorem doOps_view (hsize : objectSize < 2 ^ 31) {l : List (PendingOp × Bool)}
    (hl : ChainOf objectSize offset requests (l.map Prod.fst)) {s : SimpleBlockCacher}
    (h : ∀ x ∈ l, Ready offset (requests x.1.req).ts s) (data : Nat → Bytes) (clock : Nat → Nat) :
    ∃ s' data', doOps objectSize requests clock l (s, data) = some (s', data')
      ∧ EntryView.doOps requests (view objectSize offset s, data) l
        = (view objectSize offset s', data') := by
  induction l generalizing s data clock with
  | nil => exact ⟨s, data, rfl, rfl⟩
  | cons x l ih =>
    obtain ⟨s', data', hop, hview, hready⟩ := doOp_view hsize
      (hl.offset_eq x.1 mem_cons_self) (hl.fits x.1 mem_cons_self)
      (h x mem_cons_self) data (clock 0) x.2
    have hlater : ∀ y ∈ l, Ready offset (requests y.1.req).ts s' := by
      intro y hy
      have htime := (pairwise_cons.mp hl.times).1 _ (mem_map_of_mem (mem_map_of_mem hy))
      exact hready.mono htime
    obtain ⟨t, data'', hops, hviews⟩ := ih hl.tail hlater data' fun i => clock (i + 1)
    refine ⟨t, data'', ?_, ?_⟩
    · rw [doOps, hop]
      exact hops
    · rw [EntryView.doOps, hview]
      exact hviews

/-! ## Leaving out dead bytes -/

inductive ViewsAgree (requests : Nat → Req) (n : Nat) (rest : List PendingOp) :
    EntryView → EntryView → Prop where
  | slots {c c' : Bytes} : SameLive requests n rest c c' →
      ViewsAgree requests n rest (.slotted c) (.slotted c')
  | neither {c c' : Bytes} {found : Option (Bytes × Option Nat)} :
      SameLive requests n rest c c' →
      ViewsAgree requests n rest (.unslotted c found) (.unslotted c' found)
  /-- The second has left out every write so far. The slot that the first has got is the one that
  it will get with the next piece. -/
  | ahead {c c' found : Bytes} {misses : Option Nat} :
      (∃ next rest', rest = next :: rest' ∧ (requests next.req).ioType = .write) →
      SameLive requests n rest c found →
      ViewsAgree requests n rest (.slotted c) (.unslotted c' (some (found, misses)))

variable {v v' : EntryView}

theorem ViewsAgree.both (h : ViewsAgree requests n (op :: rest) v v') (hn : op.length ≤ n)
    (data : Nat → Bytes) :
    (EntryView.doOp requests (v, data) op false).2 = (EntryView.doOp requests (v', data) op false).2
      ∧ ViewsAgree requests n rest (EntryView.doOp requests (v, data) op false).1
        (EntryView.doOp requests (v', data) op false).1 := by
  simp only [EntryView.doOp, Bool.false_eq_true, if_false]
  cases htype : (requests op.req).ioType with
  | write =>
    refine ⟨rfl, ?_⟩
    cases h with
    | slots hlive | ahead _ hlive => exact .slots hlive.write
    | neither hlive =>
      rename_i found
      cases found with
      | none => exact .neither hlive.write
      | some found => exact .slots fun _ _ _ => rfl
  | read =>
    have hread : ∀ {c c' : Bytes}, SameLive requests n (op :: rest) c c' →
        memcpy (data op.req) op.dataOff c 0 op.length
          = memcpy (data op.req) op.dataOff c' 0 op.length := by
      intro c c' hlive
      funext i
      by_cases hi : op.dataOff ≤ i ∧ i < op.dataOff + op.length
      · rw [memcpy_of_mem hi.1 hi.2, memcpy_of_mem hi.1 hi.2]
        exact (hlive.read htype hn).1 _ (by omega)
      · rw [memcpy_of_not_mem hi, memcpy_of_not_mem hi]
    cases h with
    | slots hlive =>
      exact ⟨congrArg (update data op.req) (hread hlive), .slots (hlive.read htype hn).2⟩
    | neither hlive =>
      rename_i found
      refine ⟨congrArg (update data op.req) (hread hlive), ?_⟩
      match found with
      | none => exact .neither (hlive.read htype hn).2
      | some (_, none) => exact .neither (hlive.read htype hn).2
      | some (_, some 0) => exact .slots fun _ _ _ => rfl
      | some (_, some (_ + 1)) => exact .neither (hlive.read htype hn).2
    | ahead hnext _ =>
      obtain ⟨next, rest', heq, hwrite⟩ := hnext
      rw [(List.cons.inj heq).1, hwrite] at htype
      cases htype

theorem ViewsAgree.skip (h : ViewsAgree requests n (op :: rest) v v')
    (hwrite : (requests op.req).ioType = .write)
    (hnext : ∃ next rest', rest = next :: rest' ∧ (requests next.req).ioType = .write)
    (hdead : ∀ p < op.length, live requests rest p = false) (data : Nat → Bytes) :
    (EntryView.doOp requests (v, data) op false).2 = data
      ∧ ViewsAgree requests n rest (EntryView.doOp requests (v, data) op false).1 v' := by
  simp only [EntryView.doOp, Bool.false_eq_true, if_false, hwrite]
  refine ⟨trivial, ?_⟩
  cases h with
  | slots hlive => exact .slots (hlive.skip hdead)
  | neither hlive =>
    rename_i found
    cases found with
    | none => exact .neither (hlive.skip hdead)
    | some found =>
      have hfound : SameLive requests n (op :: rest) found.1 found.1 := fun _ _ _ => rfl
      exact .ahead hnext (hfound.skip hdead)
  | ahead _ hlive => exact .ahead hnext (hlive.skip hdead)

/-- **The two executions answer the same, and leave the same bytes.** -/
theorem ViewsAgree.doOps {l : List (PendingOp × Bool)} (hmarked : WellMarked requests l)
    (hdead : DeadStores requests l) (hn : ∀ x ∈ l, x.1.length ≤ n)
    (h : ViewsAgree requests n (l.map Prod.fst) v v') (data : Nat → Bytes) :
    (EntryView.doOps requests (v, data) (l.map fun x => (x.1, false))).2
        = (EntryView.doOps requests (v', data) l).2
      ∧ ∀ p < n, (EntryView.doOps requests (v, data) (l.map fun x => (x.1, false))).1.content p
        = (EntryView.doOps requests (v', data) l).1.content p := by
  induction l generalizing v v' data with
  | nil =>
    refine ⟨rfl, fun p hp => ?_⟩
    cases h with
    | slots hlive | neither hlive => exact hlive p hp rfl
    | ahead hnext _ =>
      obtain ⟨_, _, heq, _⟩ := hnext
      cases heq
  | cons x l ih =>
    have hn' := fun y hy => hn y (mem_cons_of_mem x hy)
    rw [map_cons, EntryView.doOps, EntryView.doOps]
    dsimp only
    cases hhint : x.2 with
    | false =>
      obtain ⟨hdata, hagree⟩ := h.both (hn x mem_cons_self) data
      have hsecond : EntryView.doOp requests (v', data) x.1 false
          = ((EntryView.doOp requests (v', data) x.1 false).1,
            (EntryView.doOp requests (v, data) x.1 false).2) := Prod.ext rfl hdata.symm
      rw [hsecond]
      exact ih hmarked.2 hdead.2 hn' hagree (EntryView.doOp requests (v, data) x.1 false).2
    | true =>
      obtain ⟨hwrite, hnext⟩ := hmarked.1 hhint
      obtain ⟨hdata, hagree⟩ := h.skip hwrite hnext (hdead.1 hhint) data
      have hfirst : EntryView.doOp requests (v, data) x.1 false
          = ((EntryView.doOp requests (v, data) x.1 false).1, data) := Prod.ext rfl hdata
      rw [hfirst]
      exact ih hmarked.2 hdead.2 hn' hagree data

/-! ## Leaving out live bytes -/

theorem WellMarked.write_of_mem {l : List (PendingOp × Bool)} (h : WellMarked requests l)
    {x : PendingOp × Bool} (hx : x ∈ l) (hhint : x.2 = true) :
    (requests x.1.req).ioType = .write := by
  induction l with
  | nil => exact absurd hx not_mem_nil
  | cons y l ih =>
    rcases mem_cons.mp hx with rfl | hx
    · exact (h.1 hhint).1
    · exact ih h.2 hx

theorem exists_live_of_not_deadStores {l : List (PendingOp × Bool)} (h : ¬ DeadStores requests l) :
    ∃ before x behind p, l = before ++ x :: behind ∧ x.2 = true ∧ p < x.1.length
      ∧ live requests (behind.map Prod.fst) p = true := by
  induction l with
  | nil => exact absurd trivial h
  | cons x l ih =>
    by_cases hhead : x.2 = true → ∀ p < x.1.length, live requests (l.map Prod.fst) p = false
    · obtain ⟨before, y, behind, p, hl, hy⟩ := ih fun hl => h ⟨hhead, hl⟩
      exact ⟨x :: before, y, behind, p, by rw [hl]; rfl, hy⟩
    · push Not at hhead
      obtain ⟨hhint, p, hp, hlive⟩ := hhead
      exact ⟨[], x, l, p, rfl, hhint, hp, (Bool.not_eq_false _).mp hlive⟩

theorem doOp_read (hread : (requests op.req).ioType = .read) (data : Nat → Bytes) :
    EntryView.doOp requests (v, data) op false = (v.read, update data op.req
      (memcpy (data op.req) op.dataOff v.content 0 op.length)) := by
  simp only [EntryView.doOp, hread, Bool.false_eq_true, if_false]

theorem doOp_write (hwrite : (requests op.req).ioType = .write) (data : Nat → Bytes) :
    EntryView.doOp requests (v, data) op false
      = (v.write (data op.req) op.dataOff op.length, data) := by
  simp only [EntryView.doOp, hwrite, Bool.false_eq_true, if_false]

theorem doOps_append (x : EntryView × (Nat → Bytes)) (l l' : List (PendingOp × Bool)) :
    EntryView.doOps requests x (l ++ l')
      = EntryView.doOps requests (EntryView.doOps requests x l) l' := by
  induction l generalizing x with
  | nil => rfl
  | cons y l ih => exact ih _

def EntryView.Settled : EntryView → Prop
  | .unslotted _ (some _) => False
  | _ => True

theorem EntryView.settled_write (v : EntryView) (buf : Bytes) (dataOff length : Nat) :
    (v.write buf dataOff length).Settled := by
  match v with
  | .slotted _ => trivial
  | .unslotted _ none => trivial
  | .unslotted _ (some _) => trivial

theorem EntryView.content_write_of_lt (v : EntryView) {length p : Nat} (hp : p < length) :
    (v.write buf dataOff length).content p = buf (dataOff + p) := by
  have hcopy : ∀ c : Bytes, memcpy c 0 buf dataOff length p = buf (dataOff + p) := fun c =>
    memcpy_of_mem (Nat.zero_le p) (by omega)
  match v with
  | .slotted c => exact hcopy c
  | .unslotted c none => exact hcopy c
  | .unslotted _ (some found) => exact hcopy found.1

theorem EntryView.Settled.content_write (h : v.Settled) (length : Nat) :
    (v.write buf dataOff length).content = memcpy v.content 0 buf dataOff length := by
  match v, h with
  | .slotted _, _ => rfl
  | .unslotted _ none, _ => rfl

theorem EntryView.Settled.read_eq (h : v.Settled) : v.read = v := by
  match v, h with
  | .slotted _, _ => rfl
  | .unslotted _ none, _ => rfl

def EntryView.Zero : EntryView → Prop
  | .slotted c => ∀ p, c p = 0
  | .unslotted c found => (∀ p, c p = 0) ∧ ∀ x, found = some x → ∀ p, x.1 p = 0

theorem EntryView.Zero.content (h : v.Zero) : ∀ p, v.content p = 0 := by
  match v, h with
  | .slotted _, h => exact h
  | .unslotted _ _, h => exact h.1

theorem EntryView.Zero.read (h : v.Zero) : v.read.Zero := by
  match v, h with
  | .slotted _, h => exact h
  | .unslotted _ none, h => exact h
  | .unslotted _ (some (_, none)), h => exact h
  | .unslotted _ (some (_, some 0)), h => exact h.2 _ rfl
  | .unslotted _ (some (found, some (misses + 1))), h =>
    refine ⟨h.1, fun x hx => ?_⟩
    cases hx
    exact h.2 (found, some (misses + 1)) rfl

theorem memcpy_zeros {dst src : Bytes} {doff soff size : Nat} (hdst : ∀ p, dst p = 0)
    (hsrc : ∀ p, src p = 0) : ∀ p, memcpy dst doff src soff size p = 0 := by
  intro p
  rw [memcpy]
  split_ifs
  · exact hsrc _
  · exact hdst p

theorem EntryView.Zero.write (h : v.Zero) (hbuf : ∀ p, buf p = 0) (length : Nat) :
    (v.write buf dataOff length).Zero := by
  match v, h with
  | .slotted _, h => exact memcpy_zeros h hbuf
  | .unslotted _ none, h => exact ⟨memcpy_zeros h.1 hbuf, nofun⟩
  | .unslotted _ (some _), h => exact memcpy_zeros (h.2 _ rfl) hbuf

theorem doOps_frame {r : Nat} {l : List (PendingOp × Bool)}
    (h : ∀ y ∈ l, (requests y.1.req).ioType = .read → y.1.req ≠ r)
    (x : EntryView × (Nat → Bytes)) : (EntryView.doOps requests x l).2 r = x.2 r := by
  induction l generalizing x with
  | nil => rfl
  | cons y l ih =>
    rw [EntryView.doOps, ih fun z hz => h z (mem_cons_of_mem y hz), EntryView.doOp]
    split_ifs
    · rfl
    · split
      · rename_i htype
        exact update_of_ne (Ne.symm (h y mem_cons_self htype)) ..
      · rfl

theorem doOps_zero (requests : Nat → Req) {q : Nat} {l : List (PendingOp × Bool)}
    (hl : ∀ x ∈ l, x.2 = false → x.1.req ≠ q) {data : Nat → Bytes} (hv : v.Zero)
    (hdata : ∀ r, r ≠ q → ∀ p, data r p = 0) :
    (∀ p, (EntryView.doOps requests (v, data) l).1.content p = 0)
      ∧ ∀ r, r ≠ q → ∀ p, (EntryView.doOps requests (v, data) l).2 r p = 0 := by
  induction l generalizing v data with
  | nil => exact ⟨hv.content, hdata⟩
  | cons x l ih =>
    have hl' := fun y hy => hl y (mem_cons_of_mem x hy)
    rw [EntryView.doOps]
    cases hhint : x.2 with
    | true => exact ih hl' hv hdata
    | false =>
      have hreq := hdata x.1.req (hl x mem_cons_self hhint)
      cases htype : (requests x.1.req).ioType with
      | read =>
        rw [doOp_read htype]
        refine ih hl' hv.read fun r hr => ?_
        by_cases hrx : r = x.1.req
        · rw [hrx, update_self]
          exact memcpy_zeros hreq hv.content
        · rw [update_of_ne hrx]
          exact hdata r hr
      | write =>
        rw [doOp_write htype]
        exact ih hl' (hv.write hreq _) hdata

theorem doOps_one {p : Nat} {l : List PendingOp} (hreqs : (l.map PendingOp.req).Nodup)
    (hlive : live requests l p = true) (hv : v.Settled) (hc : v.content p = 1)
    (data : Nat → Bytes) :
    (EntryView.doOps requests (v, data) (l.map (·, false))).1.content p = 1
      ∨ ∃ op ∈ l, (requests op.req).ioType = .read
        ∧ (EntryView.doOps requests (v, data) (l.map (·, false))).2 op.req (op.dataOff + p)
          = 1 := by
  induction l generalizing v data with
  | nil => exact Or.inl hc
  | cons op l ih =>
    obtain ⟨hnot, hreqs⟩ := nodup_cons.mp hreqs
    rw [map_cons, EntryView.doOps]
    by_cases hp : p < op.length
    · have hread : (requests op.req).ioType = .read :=
        of_decide_eq_true ((live_of_lt hp).symm.trans hlive)
      refine Or.inr ⟨op, mem_cons_self, hread, ?_⟩
      rw [doOps_frame, doOp_read hread]
      · dsimp only
        rw [update_self, memcpy_of_mem (by omega) (by omega), Nat.add_sub_cancel_left, Nat.zero_add]
        exact hc
      · intro y hy _ hreq
        obtain ⟨z, hz, rfl⟩ := mem_map.mp hy
        exact hnot (hreq ▸ mem_map_of_mem hz)
    · have hrest : live requests l p = true := (live_of_ge (by omega)).symm.trans hlive
      have hgo : ∀ {v' : EntryView} (data' : Nat → Bytes), v'.Settled → v'.content p = 1 →
          (EntryView.doOps requests (v', data') (l.map (·, false))).1.content p = 1
            ∨ ∃ op' ∈ op :: l, (requests op'.req).ioType = .read
              ∧ (EntryView.doOps requests (v', data') (l.map (·, false))).2 op'.req
                (op'.dataOff + p) = 1 := by
        intro v' data' hv' hc'
        rcases ih hreqs hrest hv' hc' data' with hcontent | ⟨op', hop', hfound⟩
        · exact Or.inl hcontent
        · exact Or.inr ⟨op', mem_cons_of_mem op hop', hfound⟩
      cases htype : (requests op.req).ioType with
      | read =>
        rw [doOp_read htype, hv.read_eq]
        exact hgo _ hv hc
      | write =>
        rw [doOp_write htype]
        refine hgo _ (EntryView.settled_write ..) ?_
        rw [hv.content_write, memcpy_of_not_mem (by omega)]
        exact hc

def onesOf (q : Nat) : Nat → Bytes := fun r _ => if r = q then 1 else 0

theorem doOps_differ {l before behind : List (PendingOp × Bool)} {x : PendingOp × Bool} {p : Nat}
    (hmarked : WellMarked requests l) (hreqs : ((l.map Prod.fst).map PendingOp.req).Nodup)
    (hl : l = before ++ x :: behind) (hhint : x.2 = true) (hp : p < x.1.length)
    (hlive : live requests (behind.map Prod.fst) p = true) (hv : v.Zero)
    (hdata : (EntryView.doOps requests (v, onesOf x.1.req)
        (l.map fun y => (y.1, false))).2
      = (EntryView.doOps requests (v, onesOf x.1.req) l).2) :
    (EntryView.doOps requests (v, onesOf x.1.req)
        (l.map fun y => (y.1, false))).1.content p
      ≠ (EntryView.doOps requests (v, onesOf x.1.req) l).1.content p := by
  have hx : x ∈ l := hl ▸ mem_append_right _ mem_cons_self
  have hwrite := hmarked.write_of_mem hx hhint
  -- without it there are zeros
  have hothers : ∀ y ∈ l, y.2 = false → y.1.req ≠ x.1.req := by
    intro y hy hfalse hreq
    rw [map_map] at hreqs
    have hyx : y = x := inj_on_of_nodup_map hreqs hy hx hreq
    rw [hyx, hhint] at hfalse
    cases hfalse
  obtain ⟨hzero, hzeros⟩ := doOps_zero requests hothers hv
    (show ∀ r, r ≠ x.1.req → ∀ p, onesOf x.1.req r p = 0 from fun r hr _ => if_neg hr)
  -- with it there is a one
  have hfull : l.map (fun y => (y.1, false))
      = (before.map Prod.fst).map (·, false)
        ++ (x.1, false) :: (behind.map Prod.fst).map (·, false) := by
    rw [hl, map_append, map_cons, map_map, map_map]
    rfl
  rw [hfull, doOps_append, EntryView.doOps] at hdata ⊢
  have hbuf : (EntryView.doOps requests (v, onesOf x.1.req)
      ((before.map Prod.fst).map (·, false))).2 x.1.req = onesOf x.1.req x.1.req := by
    refine doOps_frame (fun y _ hread hreq => ?_) _
    rw [hreq, hwrite] at hread
    cases hread
  generalize EntryView.doOps requests (v, onesOf x.1.req)
    ((before.map Prod.fst).map (·, false)) = mid at hbuf hdata ⊢
  obtain ⟨v', buffers⟩ := mid
  dsimp only at hbuf
  rw [doOp_write hwrite] at hdata ⊢
  have hone : (v'.write (buffers x.1.req) x.1.dataOff x.1.length).content p = 1 := by
    rw [v'.content_write_of_lt hp, hbuf]
    exact if_pos rfl
  have hbehind : ((behind.map Prod.fst).map PendingOp.req).Nodup := by
    rw [hl, map_append, map_append] at hreqs
    exact (nodup_cons.mp (nodup_append.mp hreqs).2.1).2
  rcases doOps_one hbehind hlive (EntryView.settled_write ..) hone buffers with
    hcontent | ⟨op, hop, hread, hfound⟩
  · rw [hcontent, hzero p]
    decide
  · rw [hdata, hzeros op.req] at hfound
    · cases hfound
    · intro hreq
      rw [hreq, hwrite] at hread
      cases hread

/-! ## The chains of `handle_request` -/

theorem content_view {s : SimpleBlockCacher} {p : Nat} (hp : p < objectSize - offset % objectSize) :
    (view objectSize offset s).content p = byteFrom objectSize s offset (offset + p) := by
  have hmod : (offset + p) % objectSize = offset % objectSize + p := by
    rw [Nat.add_mod, Nat.mod_eq_of_lt (a := p) (by omega), Nat.mod_eq_of_lt (by omega)]
  rw [view, byteFrom, hmod]
  by_cases hunset : (s.metaTbl offset).onDiskIndex = -1
  · rw [if_pos hunset, if_neg (not_not.mpr hunset)]
    exact window_of_lt hp
  · rw [if_neg hunset, if_pos hunset, ← Nat.add_assoc]
    exact window_of_lt hp

/-- The chain has the same effect with its hints and without, whatever the bytes are: every read
gets the same, and the entry holds the same. -/
def Harmless (objectSize offset : Nat) (requests : Nat → Req) (pending : List PendingOp)
    (s : SimpleBlockCacher) : Prop :=
  ∀ (clock clock' : Nat → Nat) (device backend : Bytes) (data : Nat → Bytes),
    ∃ t t' data',
      handleInOrder objectSize requests clock pending
          ({ s with device := device, backend := backend }, data) = some (t, data')
        ∧ handleRequest objectSize requests clock' pending
          ({ s with device := device, backend := backend }, data) = some (t', data')
        ∧ ∀ p < objectSize - offset % objectSize,
          byteFrom objectSize t' offset (offset + p) = byteFrom objectSize t offset (offset + p)

/-- No write that is later than the chain was served before. -/
def InTimeAt (offset : Nat) (requests : Nat → Req) (pending : List PendingOp)
    (s : SimpleBlockCacher) : Prop :=
  ∀ op ∈ reqChain pending, (s.metaTbl offset).tsWrite ≤ (requests op.req).ts

variable {s : SimpleBlockCacher} {pending : List PendingOp}

theorem handled_views (hsize : objectSize < 2 ^ 31)
    (hchain : ChainOf objectSize offset requests (reqChain pending))
    (h : ∀ op ∈ reqChain pending, Ready offset (requests op.req).ts s) (data : Nat → Bytes)
    (clock clock' : Nat → Nat) :
    ∃ t data₁ t' data₂, handleInOrder objectSize requests clock pending (s, data) = some (t, data₁)
      ∧ EntryView.doOps requests (view objectSize offset s, data)
        ((hinted requests (reqChain pending)).map fun x => (x.1, false))
          = (view objectSize offset t, data₁)
      ∧ handleRequest objectSize requests clock' pending (s, data) = some (t', data₂)
      ∧ EntryView.doOps requests (view objectSize offset s, data)
        (hinted requests (reqChain pending)) = (view objectSize offset t', data₂) := by
  have hfst := map_fst_hinted requests (reqChain pending)
  have hfalse : (hinted requests (reqChain pending)).map (fun x => (x.1, false))
      = (reqChain pending).map (·, false) := by
    conv_rhs => rw [← hfst, map_map]
    rfl
  have hplain : ((reqChain pending).map (·, false)).map Prod.fst = reqChain pending := by
    rw [map_map]
    exact map_id _
  obtain ⟨t, data₁, hplain', hview⟩ := doOps_view hsize
    (l := (reqChain pending).map (·, false)) (hplain.symm ▸ hchain)
    (fun x hx => h x.1 (hplain ▸ mem_map_of_mem hx)) data clock
  obtain ⟨t', data₂, hhinted, hview'⟩ := doOps_view hsize (l := hinted requests (reqChain pending))
    (hfst.symm ▸ hchain) (fun x hx => h x.1 (hfst ▸ mem_map_of_mem hx)) data clock'
  rw [← hfalse] at hview
  exact ⟨t, data₁, t', data₂, hplain', hview, hhinted, hview'⟩

theorem ready_bytes (hindex : ValidIndices s) (h : SlotInSight offset s) {ts : Nat}
    (hts : (s.metaTbl offset).tsWrite ≤ ts) (device backend : Bytes) :
    Ready offset ts { s with device := device, backend := backend } := by
  refine ⟨Or.inr ⟨hindex, ?_⟩, hts⟩
  rw [SlotInSight, slotOnWrite, supply_bytes]
  exact h

theorem zero_view (objectSize offset : Nat) (s : SimpleBlockCacher) :
    (view objectSize offset { s with device := fun _ => 0, backend := fun _ => 0 }).Zero := by
  have hzero : ∀ b p, slotWindow objectSize offset (fun _ => 0) b p = 0 := fun _ _ => ite_self 0
  rw [view]
  split_ifs
  · refine ⟨fun _ => ite_self 0, fun x hx => ?_⟩
    obtain ⟨b, -, rfl⟩ := Option.map_eq_some_iff.mp hx
    exact hzero b
  · exact hzero _

theorem not_harmless_of_live (hsize : objectSize < 2 ^ 31) (hindex : ValidIndices s)
    (hsupplied : SlotInSight offset s)
    (hchain : ChainOf objectSize offset requests (reqChain pending))
    (htime : InTimeAt offset requests pending s)
    (hnot : ¬ DeadStores requests (hinted requests (reqChain pending))) :
    ¬ Harmless objectSize offset requests pending s := by
  intro h
  have hfst := map_fst_hinted requests (reqChain pending)
  obtain ⟨before, x, behind, p, hl, hhint, hp, hlive⟩ := exists_live_of_not_deadStores hnot
  have hroom : p < objectSize - offset % objectSize := by
    have hfits := hchain.fits x.1 <| by
      rw [← hfst, hl]
      exact mem_map_of_mem (mem_append_right _ mem_cons_self)
    omega
  obtain ⟨t, t', data, hplain, hhinted, hbytes⟩ := h (fun _ => 0) (fun _ => 0) (fun _ => 0)
    (fun _ => 0) (onesOf x.1.req)
  obtain ⟨u, data₁, u', data₂, hplain', hview, hhinted', hview'⟩ := handled_views hsize hchain
    (fun op hop => ready_bytes hindex hsupplied (htime op hop) (fun _ => 0) fun _ => 0)
    (onesOf x.1.req) (fun _ => 0) fun _ => 0
  obtain ⟨rfl, rfl⟩ := Prod.mk.inj (Option.some.inj (hplain.symm.trans hplain'))
  obtain ⟨rfl, rfl⟩ := Prod.mk.inj (Option.some.inj (hhinted.symm.trans hhinted'))
  refine doOps_differ (wellMarked_hinted requests (reqChain pending)) (hfst.symm ▸ hchain.reqs) hl
    hhint hp hlive (zero_view objectSize offset s) ?_ ?_
  · rw [hview, hview']
  · rw [hview, hview']
    exact (content_view hroom).trans ((hbytes p hroom).symm.trans (content_view hroom).symm)

theorem harmless_of_dead (hsize : objectSize < 2 ^ 31) (hindex : ValidIndices s)
    (hsupplied : SlotInSight offset s)
    (hchain : ChainOf objectSize offset requests (reqChain pending))
    (htime : InTimeAt offset requests pending s)
    (hdead : DeadStores requests (hinted requests (reqChain pending))) :
    Harmless objectSize offset requests pending s := by
  intro clock clock' device backend data
  have hfst := map_fst_hinted requests (reqChain pending)
  obtain ⟨t, data₁, t', data₂, hplain, hview, hhinted, hview'⟩ := handled_views hsize hchain
    (fun op hop => ready_bytes hindex hsupplied (htime op hop) device backend) data clock clock'
  have hlengths : ∀ x ∈ hinted requests (reqChain pending),
      x.1.length ≤ objectSize - offset % objectSize := by
    intro x hx
    have hfits := hchain.fits x.1 (hfst ▸ mem_map_of_mem hx)
    omega
  have hsame : ∀ v, ViewsAgree requests (objectSize - offset % objectSize)
      ((hinted requests (reqChain pending)).map Prod.fst) v v := by
    intro v
    cases v with
    | slotted c => exact .slots fun _ _ _ => rfl
    | unslotted c found => exact .neither fun _ _ _ => rfl
  obtain ⟨hdata, hcontent⟩ := (hsame (view objectSize offset
    { s with device := device, backend := backend })).doOps
    (wellMarked_hinted requests (reqChain pending)) hdead hlengths data
  rw [hview, hview'] at hdata hcontent
  obtain rfl : data₁ = data₂ := hdata
  refine ⟨t, t', data₁, hplain, hhinted, fun p hp => ?_⟩
  rw [← content_view hp, ← content_view hp]
  exact (hcontent p hp).symm

/-! ## Unset indices in front of a slot -/

def byteWrite (offset i : Nat) : PendingOp := ⟨⟨offset, 1, 0⟩, i⟩

def onlyWrites (ts : Nat) : Nat → Req := fun _ => ⟨.write, ts⟩

def byteWrites (offset n : Nat) : List PendingOp := (List.range n).map (byteWrite offset)

variable {ts m : Nat}

theorem byteWrites_succ (offset m : Nat) :
    byteWrites offset (m + 1) = byteWrites offset m ++ [byteWrite offset m] := by
  rw [byteWrites, range_succ, map_append]
  rfl

theorem zip_setHint_onlyWrites (ts : Nat) (l : List PendingOp) (last : PendingOp) :
    (((l ++ [last]).map fun op => (onlyWrites ts op.req).ioType).foldr setHint (false, [])).1
        = true
      ∧ (l ++ [last]).zip
        (((l ++ [last]).map fun op => (onlyWrites ts op.req).ioType).foldr setHint (false, [])).2
          = l.map (·, true) ++ [(last, false)] := by
  induction l with
  | nil => exact ⟨rfl, rfl⟩
  | cons op l ih =>
    refine ⟨rfl, ?_⟩
    rw [cons_append, map_cons, foldr_cons, setHint]
    exact congrArg₂ (fun hint l => (op, hint) :: l) ih.1 ih.2

theorem hinted_byteWrites (hm : m < 2 ^ 15) :
    hinted (onlyWrites ts) (byteWrites offset (m + 1))
      = (byteWrites offset m).map (·, true) ++ [(byteWrite offset m, false)] := by
  have hlength : ((byteWrites offset (m + 1)).map fun op =>
      (onlyWrites ts op.req).ioType).length = m + 1 := by
    rw [length_map, byteWrites, length_map, length_range]
  have hbmod : ¬ Int.bmod (((m + 1 : Nat) : Int) - 1) (2 ^ 16) < 0 := by
    rw [Int.bmod_eq_of_le (by omega) (by omega)]
    omega
  rw [hinted, hints, hlength, if_neg hbmod, byteWrites_succ]
  exact (zip_setHint_onlyWrites ts _ _).2

theorem deadStores_byteWrites (l : List PendingOp) (hl : ∀ op ∈ l, op.length = 1)
    {last : PendingOp} (hlast : last.length = 1) :
    DeadStores (onlyWrites ts) (l.map (·, true) ++ [(last, false)]) := by
  induction l with
  | nil => exact ⟨nofun, trivial⟩
  | cons op l ih =>
    refine ⟨fun _ p hp => ?_, ih fun x hx => hl x (mem_cons_of_mem op hx)⟩
    have hp' : p < 1 := (hl op mem_cons_self) ▸ hp
    cases l with
    | nil => exact live_of_lt (hlast ▸ hp')
    | cons next l =>
      have hnext := hl next (mem_cons_of_mem op mem_cons_self)
      exact live_of_lt (hnext ▸ hp')

theorem doOps_skip (objectSize : Nat) (requests : Nat → Req) (clock : Nat → Nat)
    (l : List PendingOp) (rest : List (PendingOp × Bool))
    (x : SimpleBlockCacher × (Nat → Bytes)) :
    ∃ clock', doOps objectSize requests clock (l.map (·, true) ++ rest) x
      = doOps objectSize requests clock' rest x := by
  induction l generalizing clock with
  | nil => exact ⟨clock, rfl⟩
  | cons op l ih => exact ih _

theorem doOps_byteWrites (hsize : objectSize < 2 ^ 31)
    (hroom : 1 < objectSize - offset % objectSize) (l : List PendingOp) (last : PendingOp)
    (hl : ∀ op ∈ l ++ [last], op.toOp = ⟨offset, 1, 0⟩)
    (hunset : (s.metaTbl offset).onDiskIndex = -1) (hindex : ValidIndices s)
    (hts : (s.metaTbl offset).tsWrite ≤ ts) (hdevice : ∀ p, s.device p = 1)
    (hblank : ∀ k < l.length, (((supply offset s).drop (2 * k)).take 2).find? (0 ≤ ·) = none)
    (hslot : ((((supply offset s).drop (2 * l.length)).take 2).find? (0 ≤ ·)).isSome)
    (clock : Nat → Nat) (data : Nat → Bytes) :
    ∃ t, doOps objectSize (onlyWrites ts) clock ((l ++ [last]).map (·, false)) (s, data)
        = some (t, data)
      ∧ byteFrom objectSize t offset (offset + 1) = 1 := by
  induction l generalizing s clock with
  | nil =>
    have hop := hl last mem_cons_self
    have hready : Ready last.offset ts s := by
      rw [hop]
      exact ⟨Or.inr ⟨hindex, Or.inr (Or.inl hslot)⟩, hts⟩
    have hfits : last.toOp.offset % objectSize + last.toOp.length ≤ objectSize := by
      rw [hop]
      dsimp only
      omega
    obtain ⟨t, hwrite, hview, -⟩ := write_view hsize hfits hready (data last.req) (clock 0)
    obtain ⟨b, hfound⟩ := Option.isSome_iff_exists.mp hslot
    refine ⟨t, ?_, ?_⟩
    · rw [nil_append, map_singleton, doOps, doOp]
      simp only [Bool.false_eq_true, if_false, onlyWrites, hwrite]
      rfl
    · rw [hop] at hview
      have hfound' : slotOnWrite offset s = some b := hfound
      rw [view_of_unset hunset, hfound'] at hview
      rw [← content_view (by omega), hview]
      refine (memcpy_of_not_mem (show ¬ (0 ≤ 1 ∧ 1 < 0 + 1) by omega)).trans ?_
      exact (window_of_lt hroom).trans (hdevice _)
  | cons op l ih =>
    have hop := hl op mem_cons_self
    have hnone : slotOnWrite op.offset s = none := by
      rw [hop]
      exact hblank 0 (Nat.succ_pos _)
    have hfits : op.toOp.offset % objectSize + op.toOp.length ≤ objectSize := by
      rw [hop]
      dsimp only
      omega
    obtain ⟨s', hwrite, hentry, hindexed, hdevice', -, hsupply⟩ := write_around hfits
      (by rw [hop]; exact hunset) hindex hnone (data op.req) ts (clock 0)
    rw [hop] at hentry hsupply
    dsimp only at hentry hsupply
    obtain ⟨t, hrest, hbyte⟩ := ih (s := s') (fun x hx => hl x (mem_cons_of_mem op hx))
      (hentry ▸ hunset) hindexed (hentry ▸ hts) (fun p => hdevice' ▸ hdevice p)
      (fun k hk => by
        rw [hsupply, drop_drop, show 2 + 2 * k = 2 * (k + 1) by omega]
        exact hblank (k + 1) (Nat.succ_lt_succ hk))
      (by
        rw [hsupply, drop_drop, show 2 + 2 * l.length = 2 * (l.length + 1) by omega]
        exact hslot)
      fun i => clock (i + 1)
    refine ⟨t, ?_, hbyte⟩
    rw [cons_append, map_cons, doOps, doOp]
    simp only [Bool.false_eq_true, if_false, onlyWrites, hwrite]
    exact hrest

theorem exists_blanks (hindex : ValidIndices s) (hfew : s.freeNodes.length < 2 ^ 15)
    (hnot : ¬ ∀ b ∈ supply offset s, b < 0) :
    ∃ m < 2 ^ 15,
      (∀ k < m, (((supply offset s).drop (2 * k)).take 2).find? (0 ≤ ·) = none)
      ∧ ((((supply offset s).drop (2 * m)).take 2).find? (0 ≤ ·)).isSome := by
  -- the first slot is in the free list, or right behind it
  obtain ⟨i, hi, b, hb, hslot⟩ : ∃ i ≤ s.freeNodes.length, ∃ b, (supply offset s)[i]? = some b
      ∧ 0 ≤ b := by
    obtain ⟨b, hnot⟩ := not_forall.mp hnot
    obtain ⟨hb, hslot⟩ := Classical.not_imp.mp hnot
    rcases mem_append.mp hb with hfree | hevicted
    · obtain ⟨i, hi⟩ := mem_iff_getElem?.mp hfree
      obtain ⟨hlt, -⟩ := List.getElem?_eq_some_iff.mp hi
      exact ⟨i, hlt.le, b, (getElem?_append_left hlt).trans hi, Int.not_lt.mp hslot⟩
    · obtain ⟨c, rest, heq⟩ := exists_cons_of_ne_nil (ne_nil_of_mem hevicted)
      refine ⟨s.freeNodes.length, le_rfl, c, ?_, hindex.evicted c (heq ▸ mem_cons_self)⟩
      rw [supply, heq, getElem?_append_right le_rfl, Nat.sub_self]
      rfl
  have hfound : ((((supply offset s).drop (2 * (i / 2))).take 2).find? (0 ≤ ·)).isSome := by
    refine find?_isSome.mpr ⟨b, ?_, decide_eq_true hslot⟩
    refine mem_iff_getElem?.mpr ⟨i % 2, ?_⟩
    rw [getElem?_take_of_lt (Nat.mod_lt i (by omega)), getElem?_drop, Nat.div_add_mod]
    exact hb
  have hex : ∃ k, ((((supply offset s).drop (2 * k)).take 2).find? (0 ≤ ·)).isSome = true :=
    ⟨i / 2, hfound⟩
  refine ⟨Nat.find hex, ?_, fun k hk => ?_, Nat.find_spec hex⟩
  · have hle := Nat.find_min' hex hfound
    omega
  · exact Option.not_isSome_iff_eq_none.mp (Nat.find_min hex hk)

theorem exists_harmful (hsize : objectSize < 2 ^ 31)
    (hroom : 1 < objectSize - offset % objectSize) (hindex : ValidIndices s)
    (hfew : s.freeNodes.length < 2 ^ 15) (hnot : ¬ SlotInSight offset s) :
    ∃ (requests : Nat → Req) (pending : List PendingOp),
      ChainOf objectSize offset requests (reqChain pending)
      ∧ InTimeAt offset requests pending s
      ∧ DeadStores requests (hinted requests (reqChain pending))
      ∧ ¬ Harmless objectSize offset requests pending s := by
  rw [SlotInSight, not_or, not_or, not_not] at hnot
  obtain ⟨hunset, hnone, hslots⟩ := hnot
  obtain ⟨m, hm, hblank, hslot⟩ := exists_blanks hindex hfew hslots
  have hlength : (byteWrites offset (m + 1)).length = m + 1 := by
    rw [byteWrites, length_map, length_range]
  have hall : reqChain (byteWrites offset (m + 1)) = byteWrites offset (m + 1) := by
    rw [reqChain, hlength, Nat.mod_eq_of_lt (by omega)]
    exact take_of_length_le hlength.le
  have hops : ∀ op ∈ byteWrites offset (m + 1), op.toOp = ⟨offset, 1, 0⟩ := by
    intro op hop
    obtain ⟨i, -, rfl⟩ := mem_map.mp hop
    rfl
  refine ⟨onlyWrites (s.metaTbl offset).tsWrite, byteWrites offset (m + 1), ?_, fun _ _ => le_rfl,
    ?_, fun h => ?_⟩
  · rw [hall]
    refine ⟨fun op hop => by rw [hops op hop], fun op hop => by rw [hops op hop]; dsimp; omega,
      ?_, ?_⟩
    · rw [byteWrites, map_map]
      exact (map_id _).symm ▸ nodup_range
    · exact pairwise_map.mpr (pairwise_of_forall fun _ _ => le_rfl)
  · rw [hall, hinted_byteWrites hm]
    exact deadStores_byteWrites _ (fun op hop => by
      obtain ⟨i, -, rfl⟩ := mem_map.mp hop
      rfl) rfl
  -- ones in the slots and zeros in the backend
  obtain ⟨t, t', data, hplain, hhinted, hbytes⟩ := h (fun _ => 0) (fun _ => 0) (fun _ => 1)
    (fun _ => 0) fun _ _ => 0
  have hsupply := supply_bytes offset s (fun _ => 1) fun _ => 0
  obtain ⟨u, hplain', hone⟩ := doOps_byteWrites hsize hroom (byteWrites offset m)
    (byteWrite offset m) (byteWrites_succ offset m ▸ hops)
    (s := { s with device := fun _ => 1, backend := fun _ => 0 }) hunset hindex le_rfl
    (fun _ => rfl) (by rw [hsupply, byteWrites, length_map, length_range]; exact hblank)
    (by rw [hsupply, byteWrites, length_map, length_range]; exact hslot)
    (fun _ => 0) fun _ _ => 0
  rw [handleInOrder, hall, byteWrites_succ, hplain'] at hplain
  rw [handleRequest, hall, hinted_byteWrites hm] at hhinted
  obtain ⟨clock', hskip⟩ := doOps_skip objectSize (onlyWrites (s.metaTbl offset).tsWrite)
    (fun _ => 0) (byteWrites offset m) [(byteWrite offset m, false)]
    ({ s with device := fun _ => 1, backend := fun _ => 0 }, fun _ _ => 0)
  have hfits : (byteWrite offset m).toOp.offset % objectSize + (byteWrite offset m).toOp.length
      ≤ objectSize := show offset % objectSize + 1 ≤ objectSize by omega
  obtain ⟨u', hwrite, hentry, -, -, hbackend, -⟩ := write_around
    (s := { s with device := fun _ => 1, backend := fun _ => 0 }) hfits hunset hindex
    (by
      rw [slotOnWrite, show supply (byteWrite offset m).offset _ = _ from hsupply]
      exact Option.not_isSome_iff_eq_none.mp hnone)
    (fun _ => 0) (s.metaTbl offset).tsWrite (clock' 0)
  rw [hskip, doOps, doOp] at hhinted
  simp only [Bool.false_eq_true, if_false, onlyWrites, hwrite] at hhinted
  obtain ⟨rfl, -⟩ := Prod.mk.inj (Option.some.inj hplain)
  obtain ⟨rfl, -⟩ := Prod.mk.inj (Option.some.inj hhinted)
  have hsame := hbytes 1 hroom
  have hentry' : (u'.metaTbl offset).onDiskIndex = -1 :=
    (congrArg Block.onDiskIndex hentry).trans hunset
  rw [hone, byteFrom, if_neg (not_not.mpr hentry'), hbackend] at hsame
  have hzero := (memcpy_of_not_mem
    (show ¬ (offset ≤ offset + 1 ∧ offset + 1 < offset + 1) by omega)).symm.trans hsame
  exact absurd hzero (show ¬ (0 : UInt8) = 1 by decide)

/-- Two writes and a read, by request. -/
def writesAndRead : Nat → Req
  | 0 => ⟨.write, 5⟩
  | 1 => ⟨.write, 6⟩
  | _ => ⟨.read, 7⟩

/-- The three of them at one offset. -/
def threePending (length length' : Nat) : List PendingOp :=
  [⟨⟨0, length, 0⟩, 0⟩, ⟨⟨0, length', 0⟩, 1⟩, ⟨⟨0, 4, 0⟩, 2⟩]

/-- No entry has a slot, and these are free. -/
def freeCacher (freeNodes : List Int) : SimpleBlockCacher :=
  { metaTbl := fun _ => {}, freeNodes := freeNodes, lruDirty := [], lruClean := [],
    device := fun _ => 0, backend := fun _ => 0 }

/-- Three objects are written, flushed and evicted. Each of the writes has put an unset index into
the free list. -/
def threeEvicted : Option SimpleBlockCacher :=
  (Machine.run (SimpleBlockCacher.step 4) Timed (start 3 0 (fun _ => 0) fun _ => 2)
    [.write 4 4 (fun _ => 1) 1 1, .write 8 4 (fun _ => 1) 2 2, .write 12 4 (fun _ => 1) 3 3,
      .flushAll [0, 1, 2] 4, .evictAllClean 5]).map Run.cacher

end HDCS.Proof
