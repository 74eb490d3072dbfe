import HDCS.Core.Message
import HDCS.Lib.Machine

/-!
# A session of the server

`asio_messenger::aio_receive` of a server, `HDCSController::handle_request`, and
`server::send`. A session has one `SessionArg`: every header that comes in stores its
`seq_id` there, and every reply takes its `seq_id` from there. READs and WRITEs are
answered from their completions, which a worker runs when it likes; the others are
answered before the next header is read.

What is received is kept in order, and a reply is kept with the request it answers
and with how many headers had come in when it was sent.
-/

namespace HDCS

open Lib

inductive CtxType where
  | connect | read | write | flush | promote | setConfig | getStatus
  | connectReply | readReply | writeReply | flushReply | promoteReply
  | setConfigReply | getStatusReply
  | other (code : UInt8)
  deriving DecidableEq, Repr

def CtxType.ofCode : UInt8 → CtxType
  | 0x11 => .connect
  | 0x12 => .read
  | 0x13 => .write
  | 0x14 => .flush
  | 0x15 => .promote
  | 0x16 => .setConfig
  | 0x17 => .getStatus
  | 0x21 => .connectReply
  | 0x22 => .readReply
  | 0x23 => .writeReply
  | 0x24 => .flushReply
  | 0x25 => .promoteReply
  | 0x26 => .setConfigReply
  | 0x27 => .getStatusReply
  | code => .other code

/-- `HDCS_REQUEST_CTX_T`, and the data that follows it. Pointers are numbers here. -/
structure RequestCtx where
  type : CtxType
  hdcsInst : UInt64
  comp : UInt64
  offset : UInt64
  length : UInt64
  retDataPtr : UInt64
  data : List UInt8
  deriving DecidableEq

namespace RequestCtx

/-- `sizeof(HDCS_REQUEST_CTX_T)`: the type and seven bytes of padding, and five words. -/
def sizeOf : Nat := 48

def word (content : List UInt8) (offset : Nat) : UInt64 :=
  UInt64.ofNat (Wire.decode ((content.drop offset).take 8))

/-- `(HDCS_REQUEST_CTX_T*)(msg_content.c_str())`; a shorter content is read past its end. -/
def ofContent (content : List UInt8) : Option RequestCtx :=
  match content with
  | [] => none
  | code :: _ =>
    if content.length < sizeOf then none
    else some
      { type := CtxType.ofCode code
        hdcsInst := word content 8
        comp := word content 16
        offset := word content 24
        length := word content 32
        retDataPtr := word content 40
        data := content.drop sizeOf }

end RequestCtx

structure Pending where
  /-- Which of the session's requests it is. -/
  request : Nat
  ctx : RequestCtx
  deriving DecidableEq

/-- A message that `server::send` was given. -/
structure Reply where
  /-- In the header of the message. -/
  seqId : UInt64
  ctx : RequestCtx
  /-- The request it answers. -/
  request : Nat
  /-- How many headers had been received. -/
  after : Nat
  deriving DecidableEq

inductive Receiving where
  /-- In the first `async_read`. -/
  | header
  /-- In the second. -/
  | content (header : MsgHeader)
  /-- In `flush_all` or `promote_all`; the reply is ready. -/
  | handling (reply : RequestCtx)
  /-- An assertion has failed, or the content was no request. -/
  | failed
  deriving DecidableEq

/-- A server session. -/
structure Session where
  /-- `seq_id` of the `SessionArg`. -/
  seqId : UInt64
  receiving : Receiving
  /-- The `seq_id` of every request so far. -/
  headers : List UInt64
  pending : List Pending
  replies : List Reply

namespace Session

/-- `start`: the constructor of `SessionArg` leaves `seq_id` as it finds it. -/
def start (seqId : UInt64) : Session := ⟨seqId, .header, [], [], []⟩

inductive Act where
  /-- A header has been read. -/
  | header (h : MsgHeader)
  /-- The content has been read, and `handle_request` runs. -/
  | content (c : Content)
  /-- `flush_all` or `promote_all` returns. -/
  | handled
  /-- The completion of a READ or WRITE is run; a READ has got `data`. -/
  | complete (i : Nat) (r : Int) (data : List UInt8)

def send (request : Nat) (ctx : RequestCtx) (s : Session) : Session :=
  { s with replies := s.replies ++ [⟨s.seqId, ctx, request, s.headers.length⟩] }

def current (s : Session) : Nat := s.headers.length - 1

def replyOf (ctx : RequestCtx) (r : Int) (data : List UInt8) : RequestCtx :=
  match ctx.type with
  | .read =>
    { type := .readReply
      hdcsInst := ctx.hdcsInst
      comp := ctx.comp
      offset := 0
      length := ctx.length
      retDataPtr := if 0 ≤ r then ctx.retDataPtr else UInt64.ofInt (-1)
      data := data.take ctx.length.toNat }
  | _ =>
    { type := .writeReply
      hdcsInst := ctx.hdcsInst
      comp := ctx.comp
      offset := 0
      length := 0
      -- the status travels in the place of the pointer
      retDataPtr := UInt64.ofInt r
      data := [] }

/-- `handle_request`. `core` is where the core of a volume is, made on the first connect. -/
def handleRequest (core : List UInt8 → UInt64) (ctx : RequestCtx) (s : Session) : Session :=
  match ctx.type with
  | .connect =>
    let volume := ctx.data.take ctx.length.toNat
    { s.send s.current { ctx with
        type := .connectReply, hdcsInst := core volume, length := 0, data := [] } with
      receiving := .header }
  | .read | .write =>
    { s with
      pending := s.pending ++ [⟨s.current, ctx⟩]
      receiving := .header }
  | .flush =>
    { s with receiving := .handling { ctx with type := .flushReply, length := 0, data := [] } }
  | .promote =>
    { s with receiving := .handling { ctx with type := .promoteReply, length := 0, data := [] } }
  | _ => { s with receiving := .header }

def step (core : List UInt8 → UInt64) (s : Session) : Act → Option Session
  | .header h =>
    match s.receiving with
    -- `arg->set_seq_id`, whatever is still to be answered
    | .header =>
      some { s with
        seqId := h.seqId, headers := s.headers ++ [h.seqId], receiving := .content h }
    | _ => none
  | .content c =>
    match s.receiving with
    | .content h =>
      if c.bytes.length = h.size.toNat then
        if checkCrc h c.bytes = some true then
          match RequestCtx.ofContent c.bytes with
          | some ctx => some (s.handleRequest core ctx)
          | none => some { s with receiving := .failed }
        else some { s with receiving := .failed }
      else none
    | _ => none
  | .handled =>
    match s.receiving with
    | .handling reply => some { s.send s.current reply with receiving := .header }
    | _ => none
  | .complete i r data =>
    match s.pending[i]? with
    | some p =>
      some ({ s with pending := s.pending.eraseIdx i }.send p.request (replyOf p.ctx r data))
    | none => none

inductive Stepped (core : List UInt8 → UInt64) (s : Session) : Act → Session → Prop where
  | header {h : MsgHeader} : s.receiving = .header →
      Stepped core s (.header h)
        { s with seqId := h.seqId, headers := s.headers ++ [h.seqId], receiving := .content h }
  | request {h : MsgHeader} {c : Content} {ctx : RequestCtx} : s.receiving = .content h →
      RequestCtx.ofContent c.bytes = some ctx →
      Stepped core s (.content c) (s.handleRequest core ctx)
  | fail {h : MsgHeader} {c : Content} : s.receiving = .content h →
      Stepped core s (.content c) { s with receiving := .failed }
  | handled {reply : RequestCtx} : s.receiving = .handling reply →
      Stepped core s .handled { s.send s.current reply with receiving := .header }
  | complete {i : Nat} {r : Int} {data : List UInt8} {p : Pending} : s.pending[i]? = some p →
      Stepped core s (.complete i r data)
        ({ s with pending := s.pending.eraseIdx i }.send p.request (replyOf p.ctx r data))

theorem step_cases {core : List UInt8 → UInt64} {s s' : Session} {a : Act}
    (h : s.step core a = some s') : Stepped core s a s' := by
  cases a with
  | header _ | handled | complete _ _ _ =>
    rw [step] at h
    split at h
    · cases h
      constructor
      assumption
    · cases h
  | content c =>
    rw [step] at h
    split at h
    · rename_i hd hr
      split at h
      · split at h
        · split at h
          · cases h
            exact .request hr (by assumption)
          · cases h
            exact .fail hr
        · cases h
          exact .fail hr
      · cases h
    · cases h

end Session

end HDCS
