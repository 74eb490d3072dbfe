import HDCS.Core.ClientSession
import HDCS.Lib.OrderedMap

/-!
# Calls and their replies

What is to hold of a client session is that no assertion fails, that a caller is signalled by its
own reply only, and that a caller whose reply has been dealt with is not left waiting (`Matched`).

It does as long as everything comes in time (`InTime`). The reply to a synchronous call must not
find the map empty, and a reply that comes when it is not empty must be one to a call that is
registered: one to an asynchronous call never is. And a caller that looks at its controller after
that has been deleted must happen to find it signalled. A step that is not in time breaks it
(`matched_iff_inTime`).
-/

namespace HDCS.ClientSession

open Lib Lib.Machine List

variable {s s' : ClientSession} {c : Call} {i : Nat}

/-- What is to hold of a session. -/
structure Matched (s : ClientSession) : Prop where
  running : s.asserted = false
  /-- A caller is signalled by its own reply. -/
  own : ∀ c ∈ s.calls, ∀ id ∈ c.signals, id = c.seqId
  /-- The handler of its reply does not leave a caller behind. -/
  answered : ∀ c ∈ s.calls, c.sync = true → c.reply = .over → c.signals ≠ [] ∧ c.phase ≠ .asleep

/-- The step is taken in time. -/
def InTime (s : ClientSession) : Act → Prop
  | .test i => ∀ c ∈ s.calls[i]?, c.sync = true → s.pendingMsgMap.size ≠ 0
  | .find i => ∀ c ∈ s.calls[i]?, c.seqId ∈ s.pendingMsgMap
  | .wait i signaled => ∀ c ∈ s.calls[i]?, c.deleted = true → signaled = true
  | _ => True

instance (s : ClientSession) : ∀ a, Decidable (InTime s a)
  | .test i => inferInstanceAs
      (Decidable (∀ c ∈ s.calls[i]?, c.sync = true → s.pendingMsgMap.size ≠ 0))
  | .find i => inferInstanceAs (Decidable (∀ c ∈ s.calls[i]?, c.seqId ∈ s.pendingMsgMap))
  | .wait i signaled => inferInstanceAs
      (Decidable (∀ c ∈ s.calls[i]?, c.deleted = true → signaled = true))
  | .call _ | .otherSession | .write _ | .register _ | .wake _ | .receive _ | .done _
  | .erase _ => inferInstanceAs (Decidable True)

/-- A new call gets an id that no call of the session has: they have not gone around. -/
def Fresh (s : ClientSession) : Act → Prop
  | .call _ => ∀ c ∈ s.calls, c.seqId ≠ s.nextSequenceId + 1
  | _ => True

instance (s : ClientSession) : ∀ a, Decidable (Fresh s a)
  | .call _ => inferInstanceAs (Decidable (∀ c ∈ s.calls, c.seqId ≠ s.nextSequenceId + 1))
  | .otherSession | .write _ | .register _ | .wait _ _ | .wake _ | .receive _ | .test _ | .find _
  | .done _ | .erase _ => inferInstanceAs (Decidable True)

/-! ## The invariant -/

def Good (c : Call) : Prop :=
  match c.reply with
  | .awaited | .processing | .locking =>
    (c.sync = false → ¬ c.Registered) ∧ c.phase ≠ .returned ∧ c.signaled = false
      ∧ c.deleted = false ∧ c.signals = []
  | .found =>
    c.sync = true ∧ c.Registered ∧ c.phase ≠ .returned ∧ c.signaled = false
      ∧ c.deleted = false ∧ c.signals = []
  | .done =>
    c.sync = true ∧ c.Registered ∧ c.phase ≠ .asleep
      ∧ (c.phase ≠ .returned → c.signaled = true) ∧ c.deleted = false ∧ c.signals = [c.seqId]
  | .over =>
    (c.sync = false → ¬ c.Registered ∧ c.deleted = false ∧ c.signals = [])
      ∧ (c.sync = true → c.Registered ∧ c.phase ≠ .asleep ∧ c.deleted = true
        ∧ c.signals = [c.seqId])

def Pending (c : Call) : Prop := c.Registered ∧ c.deleted = false

structure Inv (s : ClientSession) : Prop where
  running : s.asserted = false
  good : ∀ (i : Nat) (c : Call), s.calls[i]? = some c → Good c
  ids : ∀ (i j : Nat) (c c' : Call), s.calls[i]? = some c → s.calls[j]? = some c' →
    c.seqId = c'.seqId → i = j
  map : ∀ (k : UInt64) (j : Nat), s.pendingMsgMap[k]? = some j
    ↔ ∃ c, s.calls[j]? = some c ∧ c.seqId = k ∧ Pending c

theorem Inv.matched (h : Inv s) : Matched s := by
  have hgood : ∀ c ∈ s.calls, Good c := fun c hc => by
    obtain ⟨i, hi⟩ := getElem?_of_mem hc
    exact h.good i c hi
  refine ⟨h.running, fun c hc id hid => ?_, fun c hc hsync hover => ?_⟩
  · have hc := hgood c hc
    unfold Good at hc
    split at hc
    · simp [hc.2.2.2.2] at hid
    · simp [hc.2.2.2.2] at hid
    · simp [hc.2.2.2.2] at hid
    · simp [hc.2.2.2.2.2] at hid
    · simpa [hc.2.2.2.2.2] using hid
    · cases hsync : c.sync with
      | false => simp [(hc.1 hsync).2.2] at hid
      | true => simpa [(hc.2 hsync).2.2.2] using hid
  · have hc := hgood c hc
    unfold Good at hc
    rw [hover] at hc
    have hc := hc.2 hsync
    exact ⟨by rw [hc.2.2.2]; simp, hc.2.1⟩

theorem Inv.map_self (h : Inv s) (hc : s.calls[i]? = some c) (k : UInt64) :
    s.pendingMsgMap[k]? = some i ↔ c.seqId = k ∧ Pending c := by
  rw [h.map]
  constructor
  · intro ⟨c', hc', hk⟩
    rwa [← Option.some.inj (hc.symm.trans hc')] at hk
  · exact fun hk => ⟨c, hc, hk⟩

theorem getElem?_modify_self {f : Call → Call} (hc : s.calls[i]? = some c) :
    (s.modify i f).calls[i]? = some (f c) := by
  unfold ClientSession.modify
  rw [getElem?_modify_eq, hc]
  rfl

theorem getElem?_modify_ne {f : Call → Call} {j : Nat} (hne : j ≠ i) :
    (s.modify i f).calls[j]? = s.calls[j]? := by
  unfold ClientSession.modify
  exact List.getElem?_modify_ne f _ (Ne.symm hne)

/-- **One call changes**, and the map with it. -/
theorem Inv.modify (h : Inv s) {f : Call → Call} (hc : s.calls[i]? = some c)
    (hid : (f c).seqId = c.seqId) (hgood : Good (f c)) {m : Std.TreeMap UInt64 Nat} {locked : Bool}
    (hself : ∀ k : UInt64, m[k]? = some i ↔ c.seqId = k ∧ Pending (f c))
    (hothers : ∀ (k : UInt64) (j : Nat), j ≠ i → (m[k]? = some j ↔ s.pendingMsgMap[k]? = some j)) :
    Inv { s.modify i f with pendingMsgMap := m, locked := locked } := by
  have hcalls : ∀ (j : Nat) (c' : Call), (s.modify i f).calls[j]? = some c' →
      (j = i ∧ c' = f c) ∨ (j ≠ i ∧ s.calls[j]? = some c') := by
    intro j c' hj
    by_cases heq : j = i
    · rw [heq, getElem?_modify_self hc] at hj
      exact .inl ⟨heq, (Option.some.inj hj).symm⟩
    · rw [getElem?_modify_ne heq] at hj
      exact .inr ⟨heq, hj⟩
  -- the ids are those from before
  have hold : ∀ (j : Nat) (c' : Call), (s.modify i f).calls[j]? = some c' →
      ∃ c'', s.calls[j]? = some c'' ∧ c''.seqId = c'.seqId := by
    intro j c' hj
    rcases hcalls j c' hj with ⟨rfl, rfl⟩ | ⟨_, hj⟩
    · exact ⟨c, hc, hid.symm⟩
    · exact ⟨c', hj, rfl⟩
  refine ⟨h.running, fun j c' hj => ?_, fun j k c' c'' hj hk hids => ?_, fun k j => ?_⟩
  · rcases hcalls j c' hj with ⟨_, rfl⟩ | ⟨_, hj⟩
    · exact hgood
    · exact h.good j c' hj
  · obtain ⟨a, ha, haid⟩ := hold j c' hj
    obtain ⟨b, hb, hbid⟩ := hold k c'' hk
    exact h.ids j k a b ha hb (haid.trans (hids.trans hbid.symm))
  · by_cases heq : j = i
    · subst heq
      refine (hself k).trans ⟨fun hk => ⟨f c, getElem?_modify_self hc, hid.trans hk.1, hk.2⟩, ?_⟩
      intro ⟨c', hc', hk⟩
      obtain rfl := Option.some.inj ((getElem?_modify_self hc).symm.trans hc')
      exact ⟨hid.symm.trans hk.1, hk.2⟩
    · refine (hothers k j heq).trans ((h.map k j).trans ?_)
      show _ ↔ ∃ c', (s.modify i f).calls[j]? = some c' ∧ _
      rw [getElem?_modify_ne heq]

theorem Inv.modify_same (h : Inv s) {f : Call → Call} (hc : s.calls[i]? = some c)
    (hid : (f c).seqId = c.seqId) (hgood : Good (f c)) (hpending : Pending (f c) ↔ Pending c)
    {locked : Bool} : Inv { s.modify i f with locked := locked } := by
  refine h.modify hc hid hgood (fun k => ?_) fun _ _ _ => Iff.rfl
  rw [hpending]
  exact h.map_self hc k

/-! ## The steps -/

theorem Inv.call (h : Inv s) (sync : Bool) (hfresh : Fresh s (.call sync)) :
    Inv { s with
      nextSequenceId := s.nextSequenceId + 1
      calls := s.calls ++ [Call.new sync (s.nextSequenceId + 1)] } := by
  have hcalls : ∀ (j : Nat) (c : Call),
      (s.calls ++ [Call.new sync (s.nextSequenceId + 1)])[j]? = some c →
        s.calls[j]? = some c ∨ j = s.calls.length ∧ c = Call.new sync (s.nextSequenceId + 1) := by
    intro j c hj
    rw [getElem?_append] at hj
    split at hj
    · exact .inl hj
    · rw [getElem?_singleton] at hj
      split at hj
      · exact .inr ⟨by omega, (Option.some.inj hj).symm⟩
      · cases hj
  have hne : ∀ (j : Nat) (c : Call), s.calls[j]? = some c → c.seqId ≠ s.nextSequenceId + 1 :=
    fun j c hj => hfresh c (mem_of_getElem? hj)
  refine ⟨h.running, fun j c hj => ?_, fun j k c c' hj hk hids => ?_, fun k j => ?_⟩
  · rcases hcalls j c hj with hj | ⟨_, rfl⟩
    · exact h.good j c hj
    · simp [Good, Call.new, Call.Registered]
  · rcases hcalls j c hj with hj | ⟨rfl, rfl⟩
    · rcases hcalls k c' hk with hk | ⟨rfl, rfl⟩
      · exact h.ids j k c c' hj hk hids
      · exact absurd hids (hne j c hj)
    · rcases hcalls k c' hk with hk | ⟨rfl, rfl⟩
      · exact absurd hids.symm (hne k c' hk)
      · rfl
  · rw [h.map]
    constructor
    · intro ⟨c, hc, hk⟩
      exact ⟨c, by rw [getElem?_append_left (List.getElem?_eq_some_iff.mp hc).1]; exact hc, hk⟩
    · intro ⟨c, hc, hk, hpending⟩
      rcases hcalls j c hc with hc | ⟨_, rfl⟩
      · exact ⟨c, hc, hk, hpending⟩
      -- a new call is not registered
      · exact absurd rfl hpending.1.1

theorem Inv.moveOn (h : Inv s) (hc : s.calls[i]? = some c) {p : CallPhase}
    (hp : c.phase = .sending ∧ p = .sent ∨ c.phase = .asleep ∧ p = .woken) :
    Inv (s.modify i ({ · with phase := p })) := by
  have hgood := h.good i c hc
  refine h.modify_same hc rfl ?_ ?_
  · unfold Good Call.Registered at hgood ⊢
    rcases hp with ⟨hphase, rfl⟩ | ⟨hphase, rfl⟩ <;> cases hreply : c.reply <;> simp_all
  · rcases hp with ⟨hphase, rfl⟩ | ⟨hphase, rfl⟩ <;> simp [Pending, Call.Registered, hphase]

theorem Inv.register (h : Inv s) (hc : s.calls[i]? = some c) (hsync : c.sync = true)
    (hphase : c.phase = .sent) :
    Inv { s.modify i ({ · with phase := .registered }) with
      pendingMsgMap := s.pendingMsgMap.insert c.seqId i } := by
  have hgood := h.good i c hc
  -- the handler has not come as far as to the map
  have hdeleted : c.deleted = false := by
    unfold Good Call.Registered at hgood
    cases hreply : c.reply <;> simp_all
  refine h.modify hc rfl ?_ (fun k => ?_) fun k j hne => ?_
  · unfold Good Call.Registered at hgood ⊢
    cases hreply : c.reply <;> simp_all
  · rw [OrderedMap.getElem?_insert]
    have hpending : Pending { c with phase := .registered } := by
      simp [Pending, Call.Registered, hdeleted]
    by_cases hk : c.seqId = k
    · rw [if_pos hk]
      exact iff_of_true rfl ⟨hk, hpending⟩
    · rw [if_neg hk, h.map_self hc]
      exact iff_of_false (fun hx => hk hx.1) fun hx => hk hx.1
  · rw [OrderedMap.getElem?_insert]
    by_cases hk : c.seqId = k
    · rw [if_pos hk]
      refine iff_of_false (fun hx => hne (Option.some.inj hx).symm) fun hx => ?_
      obtain ⟨c', hc', hid, -⟩ := (h.map k j).mp hx
      exact hne (h.ids j i c' c hc' hc (hid.trans hk.symm))
    · rw [if_neg hk]

theorem Inv.wait (h : Inv s) (hc : s.calls[i]? = some c) {signaled : Bool}
    (hphase : c.phase = .registered ∨ c.phase = .woken)
    (hread : c.deleted = true ∨ signaled = c.signaled)
    (htime : c.deleted = true → signaled = true) :
    Inv (s.modify i (Call.wait signaled)) := by
  have hgood := h.good i c hc
  have hreg : c.Registered := by
    rcases hphase with hphase | hphase <;> simp [Call.Registered, hphase]
  refine h.modify_same hc ?_ ?_ ?_
  · unfold Call.wait
    split <;> rfl
  · -- before its reply a caller reads `false`, and afterwards `true`
    unfold Good at hgood ⊢
    unfold Call.wait Call.Registered at *
    cases hreply : c.reply <;> cases signaled <;> simp_all
  · have hreg' : (Call.wait signaled c).Registered := by
      unfold Call.wait
      split <;> simp [Call.Registered]
    have hdeleted : (Call.wait signaled c).deleted = c.deleted := by
      unfold Call.wait
      split <;> rfl
    unfold Pending
    rw [hdeleted, and_iff_right hreg, and_iff_right hreg']

theorem Inv.receive (h : Inv s) (hc : s.calls[i]? = some c) (hreply : c.reply = .awaited) :
    Inv (s.modify i ({ · with reply := .processing })) := by
  have hgood := h.good i c hc
  refine h.modify_same hc rfl ?_ Iff.rfl
  unfold Good at hgood ⊢
  rw [hreply] at hgood
  exact hgood

theorem Inv.test (h : Inv s) (hc : s.calls[i]? = some c) (hreply : c.reply = .processing)
    (htime : c.sync = true → s.pendingMsgMap.size ≠ 0) :
    Inv (s.modify i ({ · with
      reply := if s.pendingMsgMap.size ≠ 0 then .locking else .over })) := by
  have hgood := h.good i c hc
  refine h.modify_same hc rfl ?_ Iff.rfl
  unfold Good at hgood ⊢
  rw [hreply] at hgood
  by_cases hsize : s.pendingMsgMap.size ≠ 0
  · simp only [if_pos hsize]
    exact hgood
  · simp only [if_neg hsize]
    exact ⟨fun hasync => ⟨hgood.1 hasync, hgood.2.2.2⟩, fun hsync => absurd (htime hsync) hsize⟩

theorem Inv.lookup (h : Inv s) (hc : s.calls[i]? = some c) {j : Nat}
    (hj : s.pendingMsgMap[c.seqId]? = some j) : j = i ∧ Pending c := by
  obtain ⟨c', hc', hid, hpending⟩ := (h.map _ j).mp hj
  obtain rfl := h.ids j i c' c hc' hc hid
  exact ⟨rfl, Option.some.inj (hc'.symm.trans hc) ▸ hpending⟩

theorem Inv.find (h : Inv s) (hc : s.calls[i]? = some c) (hreply : c.reply = .locking)
    (hmem : c.seqId ∈ s.pendingMsgMap) :
    Inv { s.modify i ({ · with reply := .found }) with locked := true } := by
  have hgood := h.good i c hc
  obtain ⟨j, hj⟩ := OrderedMap.mem_iff.mp hmem
  obtain ⟨-, hreg, -⟩ := h.lookup hc hj
  refine h.modify_same hc rfl ?_ Iff.rfl
  unfold Good at hgood ⊢
  rw [hreply] at hgood
  have hsync : c.sync = true := by
    cases hsync : c.sync with
    | true => rfl
    | false => exact absurd hreg (hgood.1 hsync)
  exact ⟨hsync, hreg, hgood.2⟩

theorem modify_modify (s : ClientSession) (i : Nat) (f g : Call → Call) :
    (s.modify i f).modify i g = s.modify i (g ∘ f) := by
  unfold ClientSession.modify
  rw [modify_modify_eq]

theorem Inv.done (h : Inv s) (hc : s.calls[i]? = some c) (hreply : c.reply = .found) :
    Inv (s.modify i (({ · with reply := .done }) ∘ Call.signal c.seqId)) := by
  have hgood := h.good i c hc
  refine h.modify_same hc rfl ?_ ?_
  · unfold Good at hgood ⊢
    rw [hreply] at hgood
    obtain ⟨hsync, hreg, hreturned, -, hdeleted, hsignals⟩ := hgood
    unfold Call.Registered at hreg
    simp only [Function.comp_apply, Call.signal, Call.Registered, hsync, hdeleted, hsignals]
    cases hphase : c.phase <;> simp_all
  · unfold Pending Call.Registered
    simp only [Function.comp_apply, Call.signal]
    cases hphase : c.phase <;> simp

theorem Inv.erase (h : Inv s) (hc : s.calls[i]? = some c) (hreply : c.reply = .done) :
    Inv { s.modify i (({ · with reply := .over }) ∘ ({ · with deleted := true })) with
      pendingMsgMap := s.pendingMsgMap.erase c.seqId
      locked := false } := by
  have hgood := h.good i c hc
  unfold Good at hgood
  rw [hreply] at hgood
  obtain ⟨hsync, hreg, hasleep, -, hdeleted, hsignals⟩ := hgood
  have hself : s.pendingMsgMap[c.seqId]? = some i := (h.map_self hc _).mpr ⟨rfl, hreg, hdeleted⟩
  have herase : ∀ k : UInt64, (s.pendingMsgMap.erase c.seqId)[k]?
      = if c.seqId = k then none else s.pendingMsgMap[k]? := by
    intro k
    rw [Std.TreeMap.getElem?_erase]
    simp only [Std.LawfulEqCmp.compare_eq_iff_eq]
  refine h.modify hc rfl ?_ (fun k => ?_) fun k j hne => ?_
  · unfold Good
    exact ⟨fun hasync => absurd (hsync.symm.trans hasync) (by simp),
      fun _ => ⟨hreg, hasleep, rfl, hsignals⟩⟩
  · rw [herase]
    have hgone : ¬ Pending ((({ · with reply := .over }) ∘ ({ · with deleted := true })) c) :=
      fun hpending => absurd hpending.2 (by simp)
    refine iff_of_false (fun hx => ?_) fun hx => hgone hx.2
    split at hx
    · cases hx
    · rename_i hk
      exact hk ((h.map_self hc k).mp hx).1
  · rw [herase]
    by_cases hk : c.seqId = k
    · rw [if_pos hk, ← hk, hself]
      exact iff_of_false (by simp) fun hx => hne (Option.some.inj hx).symm
    · rw [if_neg hk]

theorem step_cases {a : Act} (hs : s.step a = some s') :
    (∃ sync, a = .call sync ∧ s' = { s with
        nextSequenceId := s.nextSequenceId + 1
        calls := s.calls ++ [Call.new sync (s.nextSequenceId + 1)] })
    ∨ (a = .otherSession ∧ s' = { s with nextSequenceId := s.nextSequenceId + 1 })
    ∨ ∃ i c, a.index = some i ∧ s.calls[i]? = some c ∧ s.callStep i c a = some s' := by
  unfold step at hs
  split at hs
  · cases hs
  · split at hs
    · exact .inl ⟨_, rfl, (Option.some.inj hs).symm⟩
    · exact .inr (.inl ⟨rfl, (Option.some.inj hs).symm⟩)
    · obtain ⟨i, hi, hs⟩ := Option.bind_eq_some_iff.mp hs
      obtain ⟨c, hc, hs⟩ := Option.bind_eq_some_iff.mp hs
      exact .inr (.inr ⟨i, c, hi, hc, hs⟩)

theorem not_matched_of_left (hc : s.calls[i]? = some c) (hsync : c.sync = true)
    (hover : c.reply = .over) (hleft : c.signals = [] ∨ c.phase = .asleep) : ¬ Matched s := by
  intro h
  obtain ⟨hsignals, hphase⟩ := h.answered c (mem_of_getElem? hc) hsync hover
  rcases hleft with hleft | hleft
  · exact hsignals hleft
  · exact hphase hleft

/-- **A step of a call**: one that is in time keeps the invariant. -/
theorem Inv.callStep {a : Act} (h : Inv s) (hi : a.index = some i) (hc : s.calls[i]? = some c)
    (htime : InTime s a) (hs : s.callStep i c a = some s') : Inv s' := by
  cases a with
  | call | otherSession => cases hi
  | write j =>
    obtain ⟨hphase, hs⟩ := Option.ite_none_right_eq_some.mp hs
    exact Option.some.inj hs ▸ h.moveOn hc (.inl ⟨hphase, rfl⟩)
  | register j =>
    obtain ⟨⟨hsync, hphase⟩, hs⟩ := Option.ite_none_right_eq_some.mp hs
    exact Option.some.inj hs ▸ h.register hc hsync hphase
  | wait j signaled =>
    cases hi
    obtain ⟨⟨hphase, hread⟩, hs⟩ := Option.ite_none_right_eq_some.mp hs
    exact Option.some.inj hs ▸ h.wait hc hphase hread (htime c hc)
  | wake j =>
    obtain ⟨hphase, hs⟩ := Option.ite_none_right_eq_some.mp hs
    exact Option.some.inj hs ▸ h.moveOn hc (.inr ⟨hphase, rfl⟩)
  | receive j =>
    obtain ⟨⟨-, hreply⟩, hs⟩ := Option.ite_none_right_eq_some.mp hs
    exact Option.some.inj hs ▸ h.receive hc hreply
  | test j =>
    cases hi
    obtain ⟨hreply, hs⟩ := Option.ite_none_right_eq_some.mp hs
    exact Option.some.inj hs ▸ h.test hc hreply (htime c hc)
  | find j =>
    cases hi
    obtain ⟨⟨hreply, -⟩, hs⟩ := Option.ite_none_right_eq_some.mp hs
    rw [if_pos (htime c hc)] at hs
    exact Option.some.inj hs ▸ h.find hc hreply (htime c hc)
  | done j =>
    obtain ⟨hreply, hs⟩ := Option.ite_none_right_eq_some.mp hs
    obtain ⟨k, hk, rfl⟩ := Option.map_eq_some_iff.mp hs
    obtain ⟨rfl, -⟩ := h.lookup hc hk
    rw [modify_modify]
    exact h.done hc hreply
  | erase j =>
    obtain ⟨hreply, hs⟩ := Option.ite_none_right_eq_some.mp hs
    obtain ⟨k, hk, rfl⟩ := Option.map_eq_some_iff.mp hs
    obtain ⟨rfl, -⟩ := h.lookup hc hk
    rw [modify_modify]
    exact h.erase hc hreply

/-- **A step that is not in time** leaves a caller behind, or fails the assertion. -/
theorem Inv.late {a : Act} (h : Inv s) (hi : a.index = some i) (hc : s.calls[i]? = some c)
    (hlate : ¬ InTime s a) (hs : s.callStep i c a = some s') : ¬ Matched s' := by
  have hgood := h.good i c hc
  cases a with
  | call | otherSession | write | register | wake | receive | done | erase =>
    exact absurd trivial hlate
  | wait j signaled =>
    cases hi
    obtain ⟨⟨hphase, -⟩, hs⟩ := Option.ite_none_right_eq_some.mp hs
    obtain ⟨hdeleted, rfl⟩ : c.deleted = true ∧ signaled = false := by
      simpa [InTime, hc] using hlate
    -- only a handler that is through deletes a controller
    obtain ⟨hsync, hover⟩ : c.sync = true ∧ c.reply = .over := by
      unfold Good at hgood
      cases hreply : c.reply <;> cases hsync : c.sync <;> simp_all
    cases hs
    exact not_matched_of_left (getElem?_modify_self hc) hsync hover (.inr rfl)
  | test j =>
    cases hi
    obtain ⟨hreply, hs⟩ := Option.ite_none_right_eq_some.mp hs
    obtain ⟨hsync, hsize⟩ : c.sync = true ∧ s.pendingMsgMap.size = 0 := by
      simpa [InTime, hc] using hlate
    have hsignals : c.signals = [] := by
      unfold Good at hgood
      rw [hreply] at hgood
      exact hgood.2.2.2.2
    cases hs
    refine not_matched_of_left (getElem?_modify_self hc) hsync ?_ (.inl hsignals)
    simp [hsize]
  | find j =>
    cases hi
    obtain ⟨-, hs⟩ := Option.ite_none_right_eq_some.mp hs
    have hnot : c.seqId ∉ s.pendingMsgMap := by
      simpa [InTime, hc] using hlate
    rw [if_neg hnot] at hs
    cases hs
    exact fun h => absurd h.running (by simp)

theorem inv_start (nextSequenceId : UInt64) : Inv (start nextSequenceId) :=
  ⟨rfl, by simp [start], by simp [start], by simp [start]⟩

theorem Inv.step {a : Act} (h : Inv s) (hfresh : Fresh s a) (hs : s.step a = some s') :
    (InTime s a → Inv s') ∧ (¬ InTime s a → ¬ Matched s') := by
  rcases step_cases hs with ⟨sync, rfl, rfl⟩ | ⟨rfl, rfl⟩ | ⟨i, c, hi, hc, hs⟩
  · exact ⟨fun _ => h.call sync hfresh, fun hlate => absurd trivial hlate⟩
  · exact ⟨fun _ => ⟨h.running, h.good, h.ids, h.map⟩, fun hlate => absurd trivial hlate⟩
  · exact ⟨fun htime => h.callStep hi hc htime hs, fun hlate => h.late hi hc hlate hs⟩

/--
**Calls are matched with their replies** exactly as long as everything comes in time: that is kept
by every step that is in time, and broken by every step that is not.
-/
theorem matched_iff_inTime (nextSequenceId : UInt64) (s : ClientSession)
    (hs : Reachable step (fun s a => Fresh s a ∧ InTime s a) (start nextSequenceId) s) :
    Matched s ∧ ∀ a s', Fresh s a → s.step a = some s' → (Matched s' ↔ InTime s a) := by
  have hinv : Inv s := hs.invariant (inv_start nextSequenceId)
    fun s a s' h hok hstep => (h.step hok.1 hstep).1 hok.2
  refine ⟨hinv.matched, fun a s' hfresh hstep => ⟨fun hmatched => ?_, fun htime => ?_⟩⟩
  · by_contra hlate
    exact (hinv.step hfresh hstep).2 hlate hmatched
  · exact ((hinv.step hfresh hstep).1 htime).matched

/-- Where the calls are, their replies, and by what they were signalled. -/
def outcome (s : ClientSession) : List (CallPhase × ReplyPhase × List UInt64) :=
  s.calls.map fun c => (c.phase, c.reply, c.signals)

/-- A call that has gone to sleep is answered, and after it an asynchronous one. -/
theorem matched_in_turn : ∃ s,
    Reachable step (fun s a => Fresh s a ∧ InTime s a) (start 0) s
      ∧ outcome s = [(.returned, .over, [1]), (.sent, .over, [])] ∧ Matched s := by
  have hrun : (run step (fun s a => Fresh s a ∧ InTime s a) (start 0)
      [.call true, .call false, .write 0, .register 0, .wait 0 false, .receive 0, .test 0, .find 0,
        .done 0, .wait 0 true, .erase 0, .write 1, .receive 1, .test 1]).map
      (fun s => decide (outcome s = [(.returned, .over, [1]), (.sent, .over, [])]))
        = some true := by decide +kernel
  obtain ⟨s, hs, htest⟩ := Reachable.of_run_decide hrun
  exact ⟨s, hs, htest, (matched_iff_inTime 0 s hs).1⟩

/--
The reply to an asynchronous call comes while a caller waits: the assertion fails. The reply to a
call comes before that is registered: the caller goes to sleep when its reply has been dealt with.
A caller looks at its controller when that has been deleted, and goes to sleep too.
-/
theorem unmatched_replies :
    (∃ s, Reachable step Fresh (start 0) s ∧ s.asserted = true
      ∧ outcome s = [(.asleep, .awaited, []), (.sent, .locking, [])])
    ∧ (∃ s, Reachable step Fresh (start 0) s
      ∧ outcome s = [(.asleep, .over, [])])
    ∧ ∃ s, Reachable step Fresh (start 0) s
      ∧ outcome s = [(.asleep, .over, [1])] := by
  have hasync : (run step Fresh (start 0) [.call true, .write 0, .register 0,
      .wait 0 false, .call false, .write 1, .receive 1, .test 1, .find 1]).map
      (fun s => decide (s.asserted = true
        ∧ outcome s = [(.asleep, .awaited, []), (.sent, .locking, [])])) = some true := by
    decide +kernel
  have hearly : (run step Fresh (start 0) [.call true, .write 0, .receive 0, .test 0,
      .register 0, .wait 0 false]).map
      (fun s => decide (outcome s = [(.asleep, .over, [])])) = some true := by decide +kernel
  have hdeleted : (run step Fresh (start 0) [.call true, .write 0, .register 0, .receive 0,
      .test 0, .find 0, .done 0, .erase 0, .wait 0 false]).map
      (fun s => decide (outcome s = [(.asleep, .over, [1])])) = some true := by decide +kernel
  obtain ⟨s, hs, htest⟩ := Reachable.of_run_test hasync
  obtain ⟨t, ht, htest'⟩ := Reachable.of_run_test hearly
  obtain ⟨u, hu, htest''⟩ := Reachable.of_run_test hdeleted
  exact ⟨⟨s, hs, of_decide_eq_true htest⟩, ⟨t, ht, of_decide_eq_true htest'⟩,
    ⟨u, hu, of_decide_eq_true htest''⟩⟩

end HDCS.ClientSession
