import HDCS.Core.Session

/-!
# Which request a reply seems to answer

A reply carries the `seq_id` of the header that was received last. That is the one of
its own request if no other header came in between, which the receive loop sees to for
the requests it answers itself, and nobody for READs and WRITEs.
-/

namespace HDCS.Proof

open Lib Session Lib.Machine List

variable {core : List UInt8 → UInt64} {s s' : Session} {reply : Reply}

/-- The reply carries the `seq_id` of the request it answers. -/
def AnswersRight (s : Session) (reply : Reply) : Prop :=
  s.headers[reply.request]? = some reply.seqId

/-- The last header that had been received has the `seq_id` of the request. -/
def StillLast (s : Session) (reply : Reply) : Prop :=
  s.headers[reply.request]? = s.headers[reply.after - 1]?

instance (s : Session) (reply : Reply) : Decidable (AnswersRight s reply) :=
  inferInstanceAs (Decidable (_ = _))

instance (s : Session) (reply : Reply) : Decidable (StillLast s reply) :=
  inferInstanceAs (Decidable (_ = _))

/-- A reply that the receive loop sends itself. -/
def Immediate (reply : Reply) : Prop :=
  reply.ctx.type ≠ .readReply ∧ reply.ctx.type ≠ .writeReply

structure SentReply (headers : List UInt64) (reply : Reply) : Prop where
  /-- It carries what came in last. -/
  seqId : headers[reply.after - 1]? = some reply.seqId
  /-- The receive loop answers before it reads on. -/
  immediate : Immediate reply → reply.request = reply.after - 1

structure SessionInv (s : Session) : Prop where
  /-- The `SessionArg` holds the last header's. -/
  last : s.headers ≠ [] → s.headers[s.headers.length - 1]? = some s.seqId
  received : s.receiving ≠ .header → s.headers ≠ []
  pending : s.pending ≠ [] → s.headers ≠ []
  replies : ∀ reply ∈ s.replies, SentReply s.headers reply

theorem SentReply.header {headers : List UInt64} (h : SentReply headers reply) (x : UInt64) :
    SentReply (headers ++ [x]) reply where
  seqId := by
    have hlt := (List.getElem?_eq_some_iff.mp h.seqId).1
    rw [getElem?_append_left hlt]
    exact h.seqId
  immediate := h.immediate

theorem SessionInv.sent (h : SessionInv s) (hne : s.headers ≠ []) {request : Nat} {ctx : RequestCtx}
    (himm : ctx.type ≠ .readReply ∧ ctx.type ≠ .writeReply → request = s.current) :
    ∀ reply ∈ (s.send request ctx).replies, SentReply s.headers reply := by
  intro reply hmem
  rcases mem_append.mp hmem with hmem | hmem
  · exact h.replies reply hmem
  · rw [mem_singleton.mp hmem]
    exact ⟨h.last hne, himm⟩

theorem replyOf_type (ctx : RequestCtx) (r : Int) (data : List UInt8) :
    (replyOf ctx r data).type = .readReply ∨ (replyOf ctx r data).type = .writeReply := by
  unfold replyOf
  split
  · exact Or.inl rfl
  · exact Or.inr rfl

theorem SessionInv.handleRequest (h : SessionInv s) (hne : s.headers ≠ []) (ctx : RequestCtx) :
    SessionInv (s.handleRequest core ctx) := by
  unfold Session.handleRequest
  split
  · -- connect is answered at once
    exact ⟨h.last, fun _ => hne, h.pending, h.sent hne fun _ => rfl⟩
  -- the others have nothing to send yet
  all_goals exact ⟨h.last, fun _ => hne, fun _ => hne, h.replies⟩

theorem sessionInv_step {a : Act} (h : SessionInv s) (hs : s.step core a = some s') :
    SessionInv s' := by
  cases step_cases hs with
  | @header hd _ =>
    have hne : s.headers ++ [hd.seqId] ≠ [] := by simp
    have hlen : (s.headers ++ [hd.seqId]).length - 1 = s.headers.length := by simp
    refine ⟨fun _ => ?_, fun _ => hne, fun _ => hne, fun reply hmem =>
      (h.replies reply hmem).header hd.seqId⟩
    show (s.headers ++ [hd.seqId])[_]? = _
    rw [hlen, getElem?_concat_length]
  | @request hd c ctx hr _ =>
    exact h.handleRequest (h.received (by rw [hr]; simp)) ctx
  | @fail hd c hr =>
    exact ⟨h.last, fun _ => h.received (by rw [hr]; simp), h.pending, h.replies⟩
  | @handled ctx hr =>
    have hne := h.received (by rw [hr]; simp)
    exact ⟨h.last, fun _ => hne, h.pending, h.sent hne fun _ => rfl⟩
  | @complete i r data p hp =>
    have hne : s.headers ≠ [] := h.pending (ne_nil_of_mem (mem_of_getElem? hp))
    refine ⟨h.last, h.received, fun _ => hne, h.sent hne fun himm => ?_⟩
    rcases replyOf_type p.ctx r data with ht | ht
    · exact absurd ht himm.1
    · exact absurd ht himm.2

theorem sessionInv_reachable {seqId : UInt64} {ok : Session → Act → Prop}
    (h : Reachable (step core) ok (start seqId) s) : SessionInv s := by
  refine Reachable.invariant ?_ (fun s a s' hinv _ hs => sessionInv_step hinv hs) h
  exact ⟨fun hne => absurd rfl hne, fun hr => absurd rfl hr, fun hp => absurd rfl hp,
    fun r hr => absurd hr (by simp [start])⟩

/--
**A reply carries the id of its own request if and only if the header received last
before it was sent has that id**; the replies of the receive loop always do.
-/
theorem answersRight_iff {seqId : UInt64}
    (h : Reachable (step core) (fun _ _ => True) (start seqId) s)
    (hmem : reply ∈ s.replies) :
    (AnswersRight s reply ↔ StillLast s reply) ∧ (Immediate reply → AnswersRight s reply) := by
  have hsent := (sessionInv_reachable h).replies reply hmem
  have hiff : AnswersRight s reply ↔ StillLast s reply := by
    unfold AnswersRight StillLast
    rw [hsent.seqId]
  refine ⟨hiff, fun himm => hiff.mpr ?_⟩
  unfold StillLast
  rw [hsent.immediate himm]

/-! ## Two READs -/

def readContext : Content := ⟨0x12 :: List.replicate 47 0, by decide⟩

def readHeader (seqId : UInt64) : MsgHeader := ⟨seqId, 48, List.replicate 8 0, by decide⟩

/-- Two READs, each of which is answered before the next header arrives. -/
theorem reads_answered_in_turn :
    ∃ s, Reachable (step fun _ => 0) (fun _ _ => True) (start 0) s
      ∧ s.headers = [1, 2] ∧ s.replies.map Reply.request = [0, 1]
      ∧ ∀ reply ∈ s.replies, AnswersRight s reply := by
  have hrun : (run (step fun _ => 0) (fun _ _ => True) (start 0)
      [.header (readHeader 1), .content readContext, .complete 0 0 [],
        .header (readHeader 2), .content readContext, .complete 0 0 []]).map
      (fun s => decide (s.headers = [1, 2] ∧ s.replies.map Reply.request = [0, 1]
        ∧ ∀ reply ∈ s.replies, StillLast s reply)) = some true := by decide +kernel
  obtain ⟨s, hs, hheaders, hrequests, hlast⟩ := Reachable.of_run_decide hrun
  exact ⟨s, hs, hheaders, hrequests,
    fun reply hmem => (answersRight_iff hs hmem).1.mpr (hlast reply hmem)⟩

/-- The second of two READs comes in before the first one is answered. -/
theorem read_answered_late :
    ∃ s, Reachable (step fun _ => 0) (fun _ _ => True) (start 0) s
      ∧ s.headers = [1, 2] ∧ ∃ reply ∈ s.replies,
        reply.request = 0 ∧ reply.seqId = 2 ∧ ¬ AnswersRight s reply := by
  have hrun : (run (step fun _ => 0) (fun _ _ => True) (start 0)
      [.header (readHeader 1), .content readContext, .header (readHeader 2), .complete 0 0 []]).map
      (fun s => decide (s.headers = [1, 2] ∧ ∃ reply ∈ s.replies,
        reply.request = 0 ∧ reply.seqId = 2 ∧ ¬ AnswersRight s reply)) = some true := by
    decide +kernel
  exact Reachable.of_run_decide hrun

end HDCS.Proof
