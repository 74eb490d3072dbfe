import Mathlib.Algebra.Ring.Int.Defs
import HDCS.Core.CacherRequest
import HDCS.Proof.SimpleBlockCacher

/-!
# A request is completed once

The count of a request is at zero many times while `process` is still cutting: a piece may
be through before the next one is counted. What keeps the request from being completed
then is `submit_complete`, which is set after the last piece was counted and before it is
handed over. So the two together say that every piece was handed over and is through, and
when they do there is nobody left who would use the request.
-/

namespace HDCS.Proof

open Lib Lib.Machine SimpleBlockCacher CacherRequest List

/-! ## The pieces -/

section Pieces

variable {objectSize : Nat}

theorem pieces_fuel (hpos : 0 < objectSize) {fuel fuel' left : Nat} (hfuel : left ≤ fuel)
    (hfuel' : left ≤ fuel') (offset dataOff : Nat) :
    SimpleBlockCacher.pieces objectSize fuel offset left dataOff
      = SimpleBlockCacher.pieces objectSize fuel' offset left dataOff := by
  induction fuel generalizing fuel' left offset dataOff with
  | zero =>
    obtain rfl := Nat.le_zero.mp hfuel
    cases fuel' <;> rfl
  | succ fuel ih =>
    by_cases hleft : left = 0
    · subst hleft
      cases fuel' <;> rfl
    · obtain ⟨fuel', rfl⟩ := Nat.exists_eq_succ_of_ne_zero (show fuel' ≠ 0 by omega)
      have hlpos := lengthByEntry_pos hpos offset (Nat.pos_of_ne_zero hleft)
      simp only [SimpleBlockCacher.pieces, if_neg hleft]
      rw [ih (by omega) (show left - lengthByEntry objectSize offset left ≤ fuel' by omega)]

theorem pieces_eq (hpos : 0 < objectSize) {left : Nat} (hleft : left ≠ 0) (offset dataOff : Nat) :
    SimpleBlockCacher.pieces objectSize left offset left dataOff
      = ⟨offset, lengthByEntry objectSize offset left, dataOff⟩
        :: SimpleBlockCacher.pieces objectSize (left - lengthByEntry objectSize offset left)
            (offset + lengthByEntry objectSize offset left)
            (left - lengthByEntry objectSize offset left)
            (dataOff + lengthByEntry objectSize offset left) := by
  obtain ⟨fuel, rfl⟩ := Nat.exists_eq_succ_of_ne_zero hleft
  have hlpos := lengthByEntry_pos hpos offset (Nat.succ_pos fuel)
  rw [SimpleBlockCacher.pieces, if_neg hleft]
  exact congrArg (_ :: ·) (pieces_fuel hpos (by omega) (Nat.le_refl _) _ _)

theorem sum_length_pieces (hpos : 0 < objectSize) (left offset dataOff : Nat) :
    ((SimpleBlockCacher.pieces objectSize left offset left dataOff).map Op.length).sum = left := by
  induction left using Nat.strongRecOn generalizing offset dataOff with
  | ind left ih =>
    by_cases hleft : left = 0
    · subst hleft
      rfl
    · have hlpos := lengthByEntry_pos hpos offset (Nat.pos_of_ne_zero hleft)
      have hlle := lengthByEntry_le objectSize offset left
      rw [pieces_eq hpos hleft, map_cons, sum_cons, ih _ (by omega)]
      exact Nat.add_sub_cancel' hlle

theorem length_pos_of_mem_pieces (hpos : 0 < objectSize) {left offset dataOff : Nat} {op : Op}
    (hop : op ∈ SimpleBlockCacher.pieces objectSize left offset left dataOff) : 0 < op.length := by
  induction left using Nat.strongRecOn generalizing offset dataOff with
  | ind left ih =>
    by_cases hleft : left = 0
    · subst hleft
      cases hop
    · have hlpos := lengthByEntry_pos hpos offset (Nat.pos_of_ne_zero hleft)
      rw [pieces_eq hpos hleft] at hop
      rcases mem_cons.mp hop with rfl | hop
      · exact hlpos
      · exact ih _ (by omega) hop

theorem length_le_sum {l : List Op} (h : ∀ op ∈ l, 0 < op.length) :
    l.length ≤ (l.map Op.length).sum := by
  induction l with
  | nil => exact Nat.le_refl 0
  | cons op l ih =>
    have hop := h op mem_cons_self
    have hrest := ih fun op' hop' => h op' (mem_cons_of_mem op hop')
    rw [length_cons, map_cons, sum_cons]
    omega

end Pieces

/-! ## What every step keeps -/

variable {cfg : CacherRequest.Config} {s s' : CacherRequest} {a : CacherRequest.Act}

def pieceOpen : Op × Piece → Bool
  | (_, .pending) | (_, .reported _) => true
  | (_, .finished _) => false

/-- What a piece has returned. -/
def retOf : Op × Piece → Int
  | (_, .pending) => 0
  | (_, .reported ret) | (_, .finished ret) => ret

def inHand : CacherRequest.Phase → Nat
  | .loop => 0
  | .counted _ | .submitted _ => 1

def toCome (objectSize : Nat) (s : CacherRequest) : List Op :=
  match s.phase with
  | .loop => SimpleBlockCacher.pieces objectSize s.left s.offset s.left s.offsetByData
  | .counted length | .submitted length =>
    ⟨s.offset, length, s.offsetByData⟩
      :: SimpleBlockCacher.pieces objectSize s.left (s.offset + length) s.left
          (s.offsetByData + length)

def Marked (s : CacherRequest) : Prop := s.left = 0 ∧ ∀ length, s.phase ≠ .counted length

def AllThrough (s : CacherRequest) : Prop :=
  s.left = 0 ∧ s.phase = .loop ∧ ∀ x ∈ s.ops, pieceOpen x = false

structure StatusSound (ops : List (Op × Piece)) (requestStatus : Int) : Prop where
  ret_le : ∀ x ∈ ops, retOf x ≤ x.1.length
  failed : (∃ x ∈ ops, retOf x < 0) → requestStatus < 0
  sum : (∀ x ∈ ops, 0 ≤ retOf x) → requestStatus = (ops.map retOf).sum

structure RequestSound (cfg : CacherRequest.Config) (s : CacherRequest) : Prop where
  cut : s.ops.map Prod.fst ++ toCome cfg.objectSize s
    = mapRequest cfg.objectSize cfg.offset cfg.length
  count : s.uncompleteCount = s.ops.countP pieceOpen + inHand s.phase
  submitted : s.submitComplete = true ↔ Marked s
  status : StatusSound s.ops s.requestStatus
  /-- It is completed when everybody is through, and not before. -/
  completed : AllThrough s → s.completions = [s.requestStatus]
  pending : ¬ AllThrough s → s.completions = []
  unused : s.usedAfter = false

theorem use_eq (hcompletions : s.completions = []) : s.use = s := by
  have hused : (s.usedAfter || !s.completions.isEmpty) = s.usedAfter := by
    rw [hcompletions]
    exact Bool.or_false _
  unfold use
  rw [hused]

theorem not_allThrough (hs : Stepped cfg.objectSize s a s') : ¬ AllThrough s := by
  intro ⟨hleft, hphase, hops⟩
  cases hs with
  | uncompleteCountInc _ hne => exact hne hleft
  | setSubmitComplete hcounted _ =>
    rw [hphase] at hcounted
    exact CacherRequest.Phase.noConfusion hcounted
  | handOver h =>
    rw [hphase] at h
    rcases h with ⟨hcounted, -⟩ | hsubmitted
    · exact CacherRequest.Phase.noConfusion hcounted
    · exact CacherRequest.Phase.noConfusion hsubmitted
  | updateStatus hop _ | mayComplete hop =>
    exact Bool.noConfusion (hops _ (mem_of_getElem? hop))

theorem inHand_le (objectSize : Nat) (s : CacherRequest) :
    inHand s.phase ≤ (toCome objectSize s).length := by
  unfold toCome
  cases s.phase with
  | loop => exact Nat.zero_le _
  | counted length | submitted length => exact Nat.succ_le_succ (Nat.zero_le _)

theorem RequestSound.length_lt (h : RequestSound cfg s) :
    s.ops.length + inHand s.phase < 2 ^ 63 := by
  have hlen := congrArg List.length h.cut
  rw [length_append, length_map] at hlen
  have hpieces : (mapRequest cfg.objectSize cfg.offset cfg.length).length ≤ cfg.length := by
    refine (length_le_sum fun op hop => length_pos_of_mem_pieces cfg.objectSize_pos hop).trans ?_
    exact Nat.le_of_eq (sum_length_pieces cfg.objectSize_pos _ _ _)
  have hhand := inHand_le cfg.objectSize s
  have := cfg.length_lt
  omega

theorem requestSound_start (cfg : CacherRequest.Config) : RequestSound cfg (start cfg) where
  cut := rfl
  count := rfl
  submitted := ⟨fun h => Bool.noConfusion h, fun h => absurd h.1 (Nat.ne_of_gt cfg.length_pos)⟩
  status := {
    ret_le := fun _ hx => absurd hx not_mem_nil
    failed := fun ⟨_, hx, _⟩ => absurd hx not_mem_nil
    sum := fun _ => rfl }
  completed := fun h => absurd h.1 (Nat.ne_of_gt cfg.length_pos)
  pending := fun _ => rfl
  unused := rfl

/-! ### `process` -/

theorem RequestSound.uncompleteCountInc (h : RequestSound cfg s) (hphase : s.phase = .loop)
    (hleft : s.left ≠ 0) (hcompletions : s.completions = []) :
    RequestSound cfg { s.uncompleteCountInc with
      phase := .counted (lengthByEntry cfg.objectSize s.offset s.left)
      left := s.left - lengthByEntry cfg.objectSize s.offset s.left } := by
  have hlen := h.length_lt
  unfold CacherRequest.uncompleteCountInc
  rw [use_eq hcompletions]
  refine ⟨?_, ?_, ?_, h.status, ?_, fun _ => hcompletions, h.unused⟩
  · have hcut := h.cut
    unfold toCome at hcut ⊢
    rw [hphase] at hcut
    rwa [pieces_eq cfg.objectSize_pos hleft] at hcut
  · have hcount := countP_le_length (p := pieceOpen) (l := s.ops)
    show incr64 s.uncompleteCount = s.ops.countP pieceOpen + 1
    rw [h.count, incr64_eq (by omega), hphase]
    rfl
  · rw [show s.submitComplete = true ↔ Marked s from h.submitted]
    exact iff_of_false (fun hm => hleft hm.1) fun hm => hm.2 _ rfl
  · intro ⟨_, hloop, _⟩
    exact CacherRequest.Phase.noConfusion hloop

theorem RequestSound.setSubmitComplete (h : RequestSound cfg s) {length : Nat}
    (hphase : s.phase = .counted length) (hleft : s.left = 0) (hcompletions : s.completions = []) :
    RequestSound cfg { s.setSubmitComplete with phase := .submitted length } := by
  unfold CacherRequest.setSubmitComplete
  rw [use_eq hcompletions]
  refine ⟨?_, ?_, ?_, h.status, ?_, fun _ => hcompletions, h.unused⟩
  · have hcut := h.cut
    unfold toCome at hcut ⊢
    rwa [hphase] at hcut
  · have hcount := h.count
    rw [hphase] at hcount
    exact hcount
  · exact iff_of_true rfl ⟨hleft, fun _ hcounted => CacherRequest.Phase.noConfusion hcounted⟩
  · intro ⟨_, hloop, _⟩
    exact CacherRequest.Phase.noConfusion hloop

theorem StatusSound.append {ops : List (Op × Piece)} {requestStatus : Int}
    (h : StatusSound ops requestStatus) (op : Op) :
    StatusSound (ops ++ [(op, .pending)]) requestStatus := by
  refine ⟨fun x hx => ?_, ?_, fun hall => ?_⟩
  · rcases mem_append.mp hx with hx | hx
    · exact h.ret_le x hx
    · rw [mem_singleton.mp hx]
      exact Int.natCast_nonneg _
  · intro ⟨x, hx, hneg⟩
    rcases mem_append.mp hx with hx | hx
    · exact h.failed ⟨x, hx, hneg⟩
    · rw [mem_singleton.mp hx] at hneg
      exact absurd hneg (Int.lt_irrefl 0)
  · rw [h.sum fun x hx => hall x (mem_append_left _ hx), map_append, sum_append]
    exact (Int.add_zero _).symm

theorem RequestSound.handOver (h : RequestSound cfg s) {length : Nat}
    (hphase : s.phase = .counted length ∧ s.left ≠ 0 ∨ s.phase = .submitted length)
    (hcompletions : s.completions = []) : RequestSound cfg (s.handOver length) := by
  have hcome : toCome cfg.objectSize s = ⟨s.offset, length, s.offsetByData⟩
      :: toCome cfg.objectSize (s.handOver length) := by
    rcases hphase with ⟨hphase, -⟩ | hphase
    · rw [toCome, hphase]
      rfl
    · rw [toCome, hphase]
      rfl
  refine ⟨?_, ?_, ?_, h.status.append _, ?_, fun _ => hcompletions, h.unused⟩
  · show (s.ops ++ [_]).map Prod.fst ++ _ = _
    rw [map_append, append_assoc, ← h.cut, hcome]
    rfl
  · show s.uncompleteCount = (s.ops ++ [_]).countP pieceOpen + 0
    have hhand : inHand s.phase = 1 := by
      rcases hphase with ⟨hphase, -⟩ | hphase <;> rw [hphase] <;> rfl
    rw [h.count, countP_append, hhand]
    rfl
  · rw [show (s.handOver length).submitComplete = true ↔ Marked s from h.submitted]
    rcases hphase with ⟨hphase, hleft⟩ | hphase
    · exact iff_of_false (fun hm => hm.2 _ hphase) fun hm => hleft hm.1
    · refine and_congr_right fun _ => iff_of_true ?_ ?_
      · rw [hphase]
        exact fun _ => CacherRequest.Phase.noConfusion
      · exact fun _ => CacherRequest.Phase.noConfusion
  · intro ⟨_, _, hops⟩
    exact Bool.noConfusion (hops _ (mem_append_right _ (mem_singleton_self _)))

/-! ### The threads -/

section Threads

variable {ops : List (Op × Piece)} {requestStatus : Int} {i : Nat} {op : Op} {ret : Int}

theorem map_fst_set {p p' : Piece} (hop : ops[i]? = some (op, p)) :
    (ops.set i (op, p')).map Prod.fst = ops.map Prod.fst := map_set_eq hop rfl

theorem forall_set_reported {p : Int → Prop} (hop : ops[i]? = some (op, .pending)) (h0 : p 0) :
    (∀ x ∈ ops.set i (op, .reported ret), p (retOf x)) ↔ p ret ∧ ∀ x ∈ ops, p (retOf x) := by
  constructor
  · intro h
    refine ⟨h _ (mem_set (lt_of_getElem? hop) _), fun x hx => ?_⟩
    obtain ⟨j, hj⟩ := mem_iff_getElem?.mp hx
    by_cases hij : i = j
    · subst hij
      rw [← Option.some.inj (hop.symm.trans hj)]
      exact h0
    · exact h x (mem_of_getElem? (by rwa [getElem?_set_ne hij]))
  · intro ⟨hret, h⟩ x hx
    rcases mem_or_eq_of_mem_set hx with hx | rfl
    · exact h x hx
    · exact hret

theorem sum_retOf_le (h : ∀ x ∈ ops, retOf x ≤ x.1.length) :
    (ops.map retOf).sum ≤ ((ops.map fun x => x.1.length).sum : Nat) := by
  induction ops with
  | nil => exact Int.le_refl 0
  | cons x ops ih =>
    have hx := h x mem_cons_self
    have hrest := ih fun y hy => h y (mem_cons_of_mem x hy)
    rw [map_cons, map_cons, sum_cons, sum_cons, Int.natCast_add]
    exact Int.add_le_add hx hrest

theorem StatusSound.update (h : StatusSound ops requestStatus)
    (hop : ops[i]? = some (op, .pending)) (hret : ret ≤ op.length)
    (hlt : (ops.map fun x => x.1.length).sum < 2 ^ 63) :
    StatusSound (ops.set i (op, .reported ret))
      (if ret < 0 then ret
        else if 0 ≤ requestStatus then Int.bmod (requestStatus + ret) (2 ^ 64)
        else requestStatus) := by
  have hle : ∀ x ∈ ops.set i (op, .reported ret), retOf x ≤ x.1.length :=
    forall_mem_set h.ret_le hret
  have hall : (∀ x ∈ ops.set i (op, .reported ret), 0 ≤ retOf x)
      ↔ 0 ≤ ret ∧ ∀ x ∈ ops, 0 ≤ retOf x := forall_set_reported hop (Int.le_refl 0)
  refine ⟨hle, fun hfailed => ?_, fun hnone => ?_⟩
  · -- a failure, of this piece or of one before
    by_cases hneg : ret < 0
    · rw [if_pos hneg]
      exact hneg
    · have hbefore : requestStatus < 0 := by
        refine h.failed (Classical.byContradiction fun hno => ?_)
        obtain ⟨x, hx, hx'⟩ := hfailed
        have hpos := hall.mpr ⟨Int.not_lt.mp hneg, fun y hy =>
          Int.not_lt.mp fun hlt => hno ⟨y, hy, hlt⟩⟩
        exact absurd (hpos x hx) (Int.not_le.mpr hx')
      rw [if_neg hneg, if_neg (Int.not_le.mpr hbefore)]
      exact hbefore
  · obtain ⟨hpos, hbefore⟩ := hall.mp hnone
    have hsum := sum_map_set_add retOf (op, .reported ret) hop
    have hbound := sum_retOf_le hle
    have hlengths := map_set_eq (f := fun x : Op × Piece => x.1.length) hop
      (show (op, Piece.reported ret).1.length = (op, Piece.pending).1.length from rfl)
    have hstatus := h.sum hbefore
    have hnonneg : 0 ≤ (ops.map retOf).sum := by
      refine sum_nonneg fun r hr => ?_
      obtain ⟨x, hx, rfl⟩ := mem_map.mp hr
      exact hbefore x hx
    rw [if_neg (Int.not_lt.mpr hpos), if_pos (hstatus ▸ hnonneg), hstatus]
    rw [hlengths] at hbound
    simp only [retOf, Int.add_zero] at hsum
    rw [hsum] at hbound ⊢
    exact Int.bmod_eq_of_le (by omega) (by omega)

theorem StatusSound.finish (h : StatusSound ops requestStatus)
    (hop : ops[i]? = some (op, .reported ret)) :
    StatusSound (ops.set i (op, .finished ret)) requestStatus := by
  have hsame : ∀ x ∈ ops.set i (op, .finished ret), ∃ y ∈ ops, retOf y = retOf x ∧ y.1 = x.1 := by
    intro x hx
    rcases mem_or_eq_of_mem_set hx with hx | rfl
    · exact ⟨x, hx, rfl, rfl⟩
    · exact ⟨_, mem_of_getElem? hop, rfl, rfl⟩
  have hrets : (ops.set i (op, .finished ret)).map retOf = ops.map retOf := map_set_eq hop rfl
  refine ⟨fun x hx => ?_, ?_, fun hall => ?_⟩
  · obtain ⟨y, hy, hret, hfst⟩ := hsame x hx
    rw [← hret, ← hfst]
    exact h.ret_le y hy
  · intro ⟨x, hx, hneg⟩
    obtain ⟨y, hy, hret, -⟩ := hsame x hx
    exact h.failed ⟨y, hy, hret ▸ hneg⟩
  · rw [hrets]
    refine h.sum fun y hy => ?_
    have hmem : retOf y ∈ (ops.set i (op, .finished ret)).map retOf :=
      hrets ▸ mem_map_of_mem hy
    obtain ⟨x, hx, hret⟩ := mem_map.mp hmem
    rw [← hret]
    exact hall x hx

end Threads

theorem RequestSound.sum_length_lt (h : RequestSound cfg s) :
    (s.ops.map fun x => x.1.length).sum < 2 ^ 63 := by
  have hsum := congrArg (fun l => (l.map Op.length).sum) h.cut
  have hall := sum_length_pieces cfg.objectSize_pos cfg.length cfg.offset 0
  simp only [map_append, sum_append, map_map] at hsum
  rw [show mapRequest cfg.objectSize cfg.offset cfg.length
    = SimpleBlockCacher.pieces cfg.objectSize cfg.length cfg.offset cfg.length 0 from rfl,
    hall] at hsum
  have hcomp : (s.ops.map fun x => x.1.length).sum = (s.ops.map (Op.length ∘ Prod.fst)).sum := rfl
  have := cfg.length_lt
  omega

theorem RequestSound.updateStatus (h : RequestSound cfg s) {i : Nat} {op : Op} {ret : Int}
    (hop : s.ops[i]? = some (op, .pending)) (hret : ret ≤ op.length)
    (hcompletions : s.completions = []) :
    RequestSound cfg ((s.updateStatus ret).setPiece i op (.reported ret)) := by
  have heq : s.updateStatus ret = { s with requestStatus := if ret < 0 then ret
      else if 0 ≤ s.requestStatus then Int.bmod (s.requestStatus + ret) (2 ^ 64)
      else s.requestStatus } := by
    unfold CacherRequest.updateStatus
    rw [use_eq hcompletions]
    split_ifs <;> rfl
  rw [heq]
  refine ⟨?_, ?_, h.submitted, h.status.update hop hret h.sum_length_lt, ?_,
    fun _ => hcompletions, h.unused⟩
  · show (s.ops.set i _).map Prod.fst ++ _ = _
    rw [map_fst_set hop]
    exact h.cut
  · have hopen : (s.ops.set i (op, .reported ret)).countP pieceOpen = s.ops.countP pieceOpen :=
      countP_set_eq _ hop rfl
    show s.uncompleteCount = (s.ops.set i _).countP pieceOpen + inHand s.phase
    rw [hopen]
    exact h.count
  · intro ⟨_, _, hops⟩
    exact Bool.noConfusion (hops _ (mem_set (lt_of_getElem? hop) _))

theorem RequestSound.count_finish (h : RequestSound cfg s) {i : Nat} {op : Op} {ret : Int}
    (hop : s.ops[i]? = some (op, .reported ret)) :
    decr64 s.uncompleteCount
      = (s.ops.set i (op, .finished ret)).countP pieceOpen + inHand s.phase := by
  have hlen := h.length_lt
  have hle := countP_le_length (p := pieceOpen) (l := s.ops)
  have hset := countP_set_add pieceOpen (op, .finished ret) hop
  simp only [pieceOpen, Bool.toNat_true, Bool.toNat_false, Nat.add_zero] at hset
  rw [h.count, decr64_eq (by omega) (by omega)]
  omega

theorem RequestSound.last_iff (h : RequestSound cfg s) {i n : Nat} {op : Op} {ret : Int}
    (hcount : n = (s.ops.set i (op, .finished ret)).countP pieceOpen + inHand s.phase) :
    (s.submitComplete = true ∧ n = 0) ↔ AllThrough (s.setPiece i op (.finished ret)) := by
  rw [h.submitted, hcount, Nat.add_eq_zero_iff, countP_eq_zero]
  constructor
  · intro ⟨⟨hleft, _⟩, hops, hhand⟩
    refine ⟨hleft, ?_, fun x hx => Bool.not_eq_true _ ▸ hops x hx⟩
    show s.phase = .loop
    cases hphase : s.phase with
    | loop => rfl
    | counted length | submitted length =>
      rw [hphase] at hhand
      cases hhand
  · intro ⟨hleft, hphase, hops⟩
    have hloop : s.phase = .loop := hphase
    refine ⟨⟨hleft, ?_⟩, fun x hx => by rw [hops x hx]; exact Bool.false_ne_true, ?_⟩
    · rw [hloop]
      exact fun _ => CacherRequest.Phase.noConfusion
    · rw [hloop]
      rfl

theorem RequestSound.mayComplete (h : RequestSound cfg s) {i : Nat} {op : Op} {ret : Int}
    (hop : s.ops[i]? = some (op, .reported ret)) (hcompletions : s.completions = []) :
    RequestSound cfg (s.mayComplete.setPiece i op (.finished ret)) := by
  have hcount := h.count_finish hop
  have hlast := h.last_iff hcount
  unfold CacherRequest.mayComplete
  rw [use_eq hcompletions]
  refine ⟨?_, hcount, h.submitted, h.status.finish hop, fun hall => ?_, fun hnot => ?_, h.unused⟩
  · show (s.ops.set i _).map Prod.fst ++ _ = _
    rw [map_fst_set hop]
    exact h.cut
  · show (if _ then s.completions ++ [s.requestStatus] else s.completions) = [s.requestStatus]
    rw [if_pos (hlast.mpr hall), hcompletions]
    rfl
  · show (if _ then s.completions ++ [s.requestStatus] else s.completions) = []
    rw [if_neg fun hdone => hnot (hlast.mp hdone)]
    exact hcompletions

theorem RequestSound.step (h : RequestSound cfg s) (hs : Stepped cfg.objectSize s a s') :
    RequestSound cfg s' := by
  have hcompletions := h.pending (not_allThrough hs)
  cases hs with
  | uncompleteCountInc hphase hleft => exact h.uncompleteCountInc hphase hleft hcompletions
  | setSubmitComplete hphase hleft => exact h.setSubmitComplete hphase hleft hcompletions
  | handOver hphase => exact h.handOver hphase hcompletions
  | updateStatus hop hret => exact h.updateStatus hop hret hcompletions
  | mayComplete hop => exact h.mayComplete hop hcompletions

/-! ## Every run comes to its end -/

def stepsMade : Op × Piece → Nat
  | (_, .pending) => 2
  | (_, .reported _) => 3
  | (_, .finished _) => 4

def allSteps (s : CacherRequest) : Nat :=
  (s.ops.map stepsMade).sum + inHand s.phase + s.submitComplete.toNat

theorem allSteps_step (h : RequestSound cfg s) (hs : Stepped cfg.objectSize s a s') :
    allSteps s' = allSteps s + 1 := by
  have hcompletions := h.pending (not_allThrough hs)
  cases hs with
  | uncompleteCountInc hphase _ =>
    rw [CacherRequest.uncompleteCountInc, use_eq hcompletions]
    simp only [allSteps, hphase, inHand]
    omega
  | setSubmitComplete hphase hleft =>
    have hnot : s.submitComplete = false :=
      Bool.not_eq_true _ ▸ fun htrue => (h.submitted.mp htrue).2 _ hphase
    rw [CacherRequest.setSubmitComplete, use_eq hcompletions]
    simp only [allSteps, hphase, hnot, inHand, Bool.toNat_true, Bool.toNat_false]
  | @handOver length hphase =>
    have hhand : inHand s.phase = 1 := by
      rcases hphase with ⟨hphase, -⟩ | hphase <;> rw [hphase] <;> rfl
    have hloop : inHand .loop = 0 := rfl
    simp only [allSteps, CacherRequest.handOver, hhand, hloop, map_append, sum_append,
      map_cons, map_nil, sum_cons, sum_nil, stepsMade]
    omega
  | @updateStatus i op ret hop hret =>
    have hset := sum_map_set_add stepsMade (op, .reported ret) hop
    have heq : (s.updateStatus ret).ops = s.ops ∧ (s.updateStatus ret).phase = s.phase
        ∧ (s.updateStatus ret).submitComplete = s.submitComplete := by
      unfold CacherRequest.updateStatus use
      split_ifs <;> exact ⟨rfl, rfl, rfl⟩
    simp only [allSteps, setPiece, heq]
    simp only [stepsMade] at hset
    omega
  | @mayComplete i op ret hop =>
    have hset := sum_map_set_add stepsMade (op, .finished ret) hop
    have heq : s.mayComplete.ops = s.ops ∧ s.mayComplete.phase = s.phase
        ∧ s.mayComplete.submitComplete = s.submitComplete := by
      exact ⟨rfl, rfl, rfl⟩
    simp only [allSteps, setPiece, heq]
    simp only [stepsMade] at hset
    omega

theorem run_sound {acts : List CacherRequest.Act} (h : RequestSound cfg s)
    (hrun : run (CacherRequest.step cfg.objectSize) Unrestricted s acts = some s') :
    RequestSound cfg s' ∧ allSteps s' = allSteps s + acts.length := by
  induction acts generalizing s with
  | nil =>
    cases hrun
    exact ⟨h, rfl⟩
  | cons a acts ih =>
    rw [run_unrestricted_cons] at hrun
    obtain ⟨t, hstep, hrun⟩ := Option.bind_eq_some_iff.mp hrun
    have hs := step_cases hstep
    obtain ⟨hsound, hsteps⟩ := ih (h.step hs) hrun
    refine ⟨hsound, ?_⟩
    rw [hsteps, allSteps_step h hs, length_cons]
    omega

/-- Every piece was handed over and is through. -/
def EveryPieceFinished (cfg : CacherRequest.Config) (s : CacherRequest) : Prop :=
  s.ops.map Prod.fst = mapRequest cfg.objectSize cfg.offset cfg.length
    ∧ ∀ x ∈ s.ops, ∃ ret, x.2 = .finished ret

theorem pieceOpen_eq_false {x : Op × Piece} : pieceOpen x = false ↔ ∃ ret, x.2 = .finished ret := by
  obtain ⟨op, p⟩ := x
  cases p <;> simp [pieceOpen]

theorem RequestSound.everyPieceFinished_iff (h : RequestSound cfg s) :
    EveryPieceFinished cfg s ↔ AllThrough s := by
  have hcut := h.cut
  constructor
  · intro ⟨hops, hfinished⟩
    rw [hops, append_right_eq_self] at hcut
    unfold toCome at hcut
    cases hphase : s.phase with
    | counted length | submitted length =>
      rw [hphase] at hcut
      cases hcut
    | loop =>
      rw [hphase] at hcut
      refine ⟨Classical.byContradiction fun hleft => ?_, hphase, fun x hx =>
        pieceOpen_eq_false.mpr (hfinished x hx)⟩
      simp only [pieces_eq cfg.objectSize_pos hleft] at hcut
      cases hcut
  · intro ⟨hleft, hphase, hops⟩
    rw [toCome, hphase] at hcut
    simp only [hleft, SimpleBlockCacher.pieces, append_nil] at hcut
    exact ⟨hcut, fun x hx => pieceOpen_eq_false.mp (hops x hx)⟩

theorem exists_step (h : ¬ AllThrough s) : ∃ a s', s.step cfg.objectSize a = some s' := by
  cases hphase : s.phase with
  | counted length =>
    by_cases hleft : s.left = 0
    · exact ⟨.setSubmitComplete, _, by rw [CacherRequest.step, hphase]; exact if_pos hleft⟩
    · exact ⟨.handOver, _, by rw [CacherRequest.step, hphase]; exact if_neg hleft⟩
  | submitted length => exact ⟨.handOver, _, by rw [CacherRequest.step, hphase]⟩
  | loop =>
    by_cases hleft : s.left = 0
    · have hopen : ∃ x ∈ s.ops, pieceOpen x = true := by
        refine Classical.byContradiction fun hno => h ⟨hleft, hphase, fun x hx => ?_⟩
        exact Bool.not_eq_true _ ▸ fun htrue => hno ⟨x, hx, htrue⟩
      obtain ⟨⟨op, p⟩, hx, hp⟩ := hopen
      obtain ⟨i, hi⟩ := mem_iff_getElem?.mp hx
      cases p with
      | pending =>
        have hzero : (0 : Int) ≤ op.length := Int.natCast_nonneg _
        exact ⟨.updateStatus i 0, _, by rw [CacherRequest.step, hi]; exact if_pos hzero⟩
      | reported ret => exact ⟨.mayComplete i, _, by rw [CacherRequest.step, hi]⟩
      | finished ret => exact Bool.noConfusion hp
    · exact ⟨.uncompleteCountInc, _, if_pos ⟨hphase, hleft⟩⟩

theorem sum_stepsMade_le (ops : List (Op × Piece)) :
    (ops.map stepsMade).sum ≤ 4 * ops.length := by
  induction ops with
  | nil => exact Nat.le_refl 0
  | cons x ops ih =>
    have hx : stepsMade x ≤ 4 := by
      obtain ⟨op, p⟩ := x
      cases p <;> simp [stepsMade]
    rw [map_cons, sum_cons, length_cons]
    omega

theorem allSteps_le (h : RequestSound cfg s) :
    allSteps s ≤ 4 * (mapRequest cfg.objectSize cfg.offset cfg.length).length + 1 := by
  have hlen := congrArg List.length h.cut
  rw [length_append, length_map] at hlen
  have hhand := inHand_le cfg.objectSize s
  have hops := sum_stepsMade_le s.ops
  have hbool := Bool.toNat_le s.submitComplete
  unfold allSteps
  omega

/--
**A request is completed exactly once.**

For every request and every interleaving of `process` with the threads: `comp->complete` has been
called once if every piece was handed over and is through, and not at all before; nobody uses the
request after the call; the status it is called with is negative if a piece failed, and the sum of
what the pieces have returned otherwise. As long as a piece is not through a step can be made, and
no run is longer than four steps for every piece and one for the mark.
-/
theorem cacherRequest_completed_once (cfg : CacherRequest.Config) (acts : List CacherRequest.Act)
    (s : CacherRequest)
    (hrun : run (CacherRequest.step cfg.objectSize) Unrestricted (start cfg) acts = some s) :
    (EveryPieceFinished cfg s ∧ s.completions = [s.requestStatus]
      ∨ ¬ EveryPieceFinished cfg s ∧ s.completions = []
        ∧ ∃ a s', s.step cfg.objectSize a = some s')
    ∧ s.usedAfter = false
    ∧ (∀ status ∈ s.completions, ((∃ x ∈ s.ops, retOf x < 0) → status < 0)
        ∧ ((∀ x ∈ s.ops, 0 ≤ retOf x) → status = (s.ops.map retOf).sum))
    ∧ acts.length ≤ 4 * (mapRequest cfg.objectSize cfg.offset cfg.length).length + 1 := by
  obtain ⟨h, hsteps⟩ := run_sound (requestSound_start cfg) hrun
  have hiff := h.everyPieceFinished_iff
  refine ⟨?_, h.unused, fun status hstatus => ?_, ?_⟩
  · by_cases hall : AllThrough s
    · exact Or.inl ⟨hiff.mpr hall, h.completed hall⟩
    · exact Or.inr ⟨fun hevery => hall (hiff.mp hevery), h.pending hall, exists_step hall⟩
  · have hall : AllThrough s := Classical.byContradiction fun hnot => by
      rw [h.pending hnot] at hstatus
      exact absurd hstatus not_mem_nil
    rw [h.completed hall, mem_singleton] at hstatus
    rw [hstatus]
    exact ⟨h.status.failed, h.status.sum⟩
  · have hle := allSteps_le h
    have hzero : allSteps (start cfg) = 0 := rfl
    omega

/-- Four bytes over three objects. -/
def threeObjects : CacherRequest.Config where
  objectSize := 2
  offset := 1
  length := 4
  objectSize_pos := Nat.two_pos
  length_pos := Nat.succ_pos 3
  length_lt := by decide

/-- The first piece is through before the second one is counted, and the second one fails. -/
def secondFails : List CacherRequest.Act :=
  [.uncompleteCountInc, .handOver, .updateStatus 0 1, .mayComplete 0, .uncompleteCountInc,
    .handOver, .uncompleteCountInc, .updateStatus 1 (-5), .setSubmitComplete, .handOver,
    .updateStatus 2 1, .mayComplete 2, .mayComplete 1]

theorem cacherRequest_completed_failed :
    ∃ s, run (CacherRequest.step 2) Unrestricted (start threeObjects) secondFails = some s
      ∧ s.completions = [-5] ∧ s.usedAfter = false ∧ ∀ status ∈ s.completions, status < 0 := by
  have htest : (run (CacherRequest.step 2) Unrestricted (start threeObjects) secondFails).map
      (fun s => decide (s.completions = [-5] ∧ ∃ x ∈ s.ops, retOf x < 0)) = some true := by
    decide +kernel
  obtain ⟨s, hrun, hs⟩ := Option.map_eq_some_iff.mp htest
  obtain ⟨hcompletions, hfailed⟩ := of_decide_eq_true hs
  obtain ⟨-, hunused, hstatus, -⟩ :=
    cacherRequest_completed_once threeObjects secondFails s hrun
  exact ⟨s, hrun, hcompletions, hunused, fun status h => (hstatus status h).1 hfailed⟩

end HDCS.Proof
