import HDCS.Core.HACluster
import HDCS.Proof.DomainMap

/-!
# The sizes of the messages of the HA layer

`Message` takes the last eight bytes of a content. A domain item takes 32 bytes for each host in it
and one more, and a command two bytes more than its text: an empty item and a short command are too
short. The other kinds of messages have a size that is large enough.

A command that has got on its way is answered and forwarded with the text it has, so only the
console can bring in one that is too short. Who has an empty item is said in `DomainMap`.
-/

namespace HDCS.Proof

open Lib HACluster Lib.Machine List

variable {cfg : HAConfig}

/-! ## Sizes -/

def Framed (o : Outgoing) : Prop := crcByteNum ≤ o.content.bytes.length

def LongEnough (n : Nat) : Prop := crcByteNum ≤ cmdSize n

theorem fits_iff_framed (e : Envelope) : e.fits = true ↔ Framed e.out := by
  unfold Envelope.fits Framed Message.new
  split
  · exact iff_of_true rfl (by assumption)
  · exact iff_of_false (by simp) (by assumption)

theorem longEnough_iff {n : Nat} (hn : n < 2 ^ 32 - 2) : LongEnough n ↔ 6 ≤ n := by
  unfold LongEnough cmdSize crcByteNum
  omega

structure Sized (out : List Outgoing) (P : Prop) : Prop where
  small : ∀ o ∈ out, o.content.bytes.length < 2 ^ 32
  fits : (∀ o ∈ out, Framed o) ↔ P

theorem Sized.nil : Sized [] True := ⟨by simp, by simp⟩

theorem Sized.append {out out' : List Outgoing} {P Q : Prop} (h : Sized out P)
    (h' : Sized out' Q) : Sized (out ++ out') (P ∧ Q) := by
  refine ⟨fun x hx => ?_, ?_⟩
  · rcases mem_append.mp hx with hx | hx
    · exact h.small x hx
    · exact h'.small x hx
  · rw [forall_mem_append, h.fits, h'.fits]

theorem Sized.single {o : Outgoing} {P : Prop} {n : Nat} (hlen : o.content.bytes.length = n)
    (hn : n < 2 ^ 32) (hP : crcByteNum ≤ n ↔ P) : Sized [o] P := by
  refine ⟨fun x hx => ?_, ?_⟩
  · rw [mem_singleton.mp hx, hlen]
    exact hn
  · rw [forall_mem_singleton, ← hP, ← hlen]
    rfl

theorem Sized.congr {out : List Outgoing} {P Q : Prop} (h : Sized out P) (hPQ : P ↔ Q) :
    Sized out Q := ⟨h.small, h.fits.trans hPQ⟩

theorem sized_cmd (receiver : Option Party) (onConnection : Bool) (type : CmdType) (cmd : Text) :
    Sized [⟨receiver, onConnection, cmdMsg type cmd⟩] (LongEnough cmd.length) :=
  .single (length_cmdMsg type cmd) (cmdSize_lt _) Iff.rfl

theorem sized_map (nodes : List Text) (type : CmdType) (cmd : Text) :
    Sized (nodes.map fun node => ⟨some (.client node), true, cmdMsg type cmd⟩)
      (nodes ≠ [] → LongEnough cmd.length) := by
  induction nodes with
  | nil => exact ⟨by simp, by simp⟩
  | cons node nodes ih =>
    exact ((sized_cmd _ _ type cmd).append ih).congr
      ⟨fun h _ => h.1, fun h => ⟨h (by simp), fun _ => h (by simp)⟩⟩

theorem sized_domainItem (receiver : Option Party) (onConnection : Bool) (item : List Text) :
    Sized [⟨receiver, onConnection, domainItemMsg item⟩] (item.length % 256 ≠ 0) := by
  refine .single (length_domainItemBytes item) (by omega) ?_
  unfold crcByteNum
  omega

/-! ## The handlers -/

def CmdFits (nodes : List Text) (status : Option Text) (msg : Content) : Prop :=
  match CmdType.ofCode (msg.bytes.getD 1 0) with
  | .console =>
    if getCmd msg = ascii "get_status" then ∀ reply ∈ status, LongEnough reply.length
    else nodes ≠ [] → LongEnough (getCmd msg).length
  | .request | .reply => LongEnough (getCmd msg).length
  | _ => True

theorem sized_handleCmd {nodes : List Text} {status : Option Text} {session : Option Party}
    {msg : Content} {out : List Outgoing} (h : handleCmd nodes status session msg = some out) :
    Sized out (CmdFits nodes status msg) := by
  unfold handleCmd at h
  unfold CmdFits
  cases hcode : msg.bytes[1]? with
  | none =>
    rw [hcode] at h
    cases h
  | some code =>
    rw [hcode] at h
    dsimp only at h
    rw [getD_eq_getElem?_getD, hcode, Option.getD_some]
    cases htype : CmdType.ofCode code with
    | console =>
      rw [htype] at h
      dsimp only at h ⊢
      split
      · rename_i hstatus
        rw [if_pos hstatus] at h
        obtain ⟨reply, hreply, rfl⟩ := Option.map_eq_some_iff.mp h
        rw [hreply]
        exact (sized_cmd _ _ _ reply).congr (by simp)
      · rename_i hother
        rw [if_neg hother] at h
        cases h
        exact sized_map nodes _ _
    | request | reply =>
      rw [htype] at h
      cases h
      exact sized_cmd _ _ _ _
    | consoleReply | other code =>
      rw [htype] at h
      cases h
      exact .nil

def AllServed (m : HAManager) : Prop :=
  ∀ node ∈ m.connMap, Served m.coreStat.domainMap node

theorem sized_sendDomainItems :
    ∀ {nodes : List Text} {m : HAManager} {out : List Outgoing} {x : HAManager × List Outgoing}
      {P : Prop}, Sized out P → nodes.foldlM HAManager.sendDomainItem (m, out) = some x →
      Sized x.2 (P ∧ ∀ node ∈ nodes, HasItem m.coreStat.domainMap node)
  | [], m, out, x, P, hout, hx => by
    cases hx
    exact hout.congr (by simp)
  | node :: nodes, m, out, x, P, hout, hx => by
    rw [foldlM_cons] at hx
    obtain ⟨y, hy, hx⟩ := Option.bind_eq_some_iff.mp hx
    obtain ⟨z, hz, rfl⟩ := Option.map_eq_some_iff.mp hy
    obtain ⟨w, hw, rfl⟩ := Option.map_eq_some_iff.mp hz
    have hnode : w.1.length % 256 ≠ 0 ↔ HasItem m.coreStat.domainMap node :=
      ⟨fun h => ⟨w, hw, h⟩, fun ⟨_, hw', h⟩ => Option.some.inj (hw.symm.trans hw') ▸ h⟩
    -- the items of the others are not changed by asking for this one
    refine (sized_sendDomainItems (hout.append (sized_domainItem _ _ w.1)) hx).congr ?_
    rw [forall_mem_cons, ← hnode, and_assoc]
    simp only [hasItem_getHostDomainItem hw]

theorem sized_distribute {m : HAManager} {x : HAManager × List Outgoing}
    (h : Fresh m.coreStat.domainMap) (hx : m.distributeDomainMap = some x) :
    Sized x.2 (AllServed m) := by
  refine (sized_sendDomainItems .nil hx).congr ?_
  unfold AllServed
  simp only [Std.TreeMap.mem_keys, hasItem_iff h, true_and]

structure Receivable (msg : Content) : Prop where
  framed : crcByteNum ≤ msg.bytes.length
  small : msg.bytes.length < 2 ^ 32

theorem Receivable.longEnough {msg : Content} (h : Receivable msg) :
    LongEnough (getCmd msg).length := by
  have hframed := h.framed
  have hsmall := h.small
  unfold crcByteNum at hframed
  rw [length_getCmd, Nat.mod_eq_of_lt (by omega), longEnough_iff (by omega)]
  omega

theorem Receivable.cmdFits_iff {msg : Content} (h : Receivable msg) (nodes : List Text)
    (status : Option Text) : CmdFits nodes status msg
      ↔ (CmdType.ofCode (msg.bytes.getD 1 0) = .console → getCmd msg = ascii "get_status" →
          ∀ reply ∈ status, LongEnough reply.length) := by
  have hlong := h.longEnough
  unfold CmdFits
  cases CmdType.ofCode (msg.bytes.getD 1 0) with
  | console =>
    by_cases hstatus : getCmd msg = ascii "get_status"
    · simp [hstatus]
    · simp [hstatus, hlong]
  | request | reply | consoleReply | other code => simp [hlong]

def MsgFits (cfg : HAConfig) (m : HAManager) (msg : Content) : Prop :=
  match HAMsgType.ofCode (msg.bytes.getD 0 0) with
  | .cmd => CmdType.ofCode (msg.bytes.getD 1 0) = .console → getCmd msg = ascii "get_status" →
      LongEnough m.coreStat.printToString.length
  | .coreStat => ∀ c, m.coreStat.takeStat (getNodeName msg) (getNodeStat msg) = some c →
      Served c.domainMap (getNodeName msg)
  | .haConn => ∀ m', m.connect cfg (getNodeName msg) = some m' → AllServed m'
  | _ => True

theorem coreStat_requestHandler {c : CoreStatServer} {session : Option Party} {msg : Content}
    {x : CoreStatServer × List Outgoing} (h : Fresh c.domainMap)
    (hx : c.requestHandler session msg = some x) :
    Fresh x.1.domainMap
      ∧ Sized x.2 (∀ c', c.takeStat (getNodeName msg) (getNodeStat msg) = some c' →
        Served c'.domainMap (getNodeName msg)) := by
  unfold CoreStatServer.requestHandler at hx
  split at hx
  · cases hx
  · obtain ⟨c', hc', hx⟩ := Option.bind_eq_some_iff.mp hx
    obtain ⟨y, hy, rfl⟩ := Option.map_eq_some_iff.mp hx
    have hfresh := fresh_takeStat h hc'
    refine ⟨fresh_coreStatItem hfresh hy, (sized_domainItem _ _ y.1).congr ?_⟩
    obtain ⟨z, hz, rfl⟩ := Option.map_eq_some_iff.mp hy
    simp only [hc', Option.some.injEq, forall_eq', ← hasItem_iff hfresh]
    exact ⟨fun h => ⟨z, hz, h⟩, fun ⟨_, hz', h⟩ => Option.some.inj (hz.symm.trans hz') ▸ h⟩

theorem manager_requestHandler {m : HAManager} {session : Option Party} {msg : Content}
    {x : HAManager × List Outgoing} (h : Fresh m.coreStat.domainMap) (hmsg : Receivable msg)
    (hx : m.requestHandler cfg session msg = some x) :
    Fresh x.1.coreStat.domainMap ∧ Sized x.2 (MsgFits cfg m msg) := by
  unfold HAManager.requestHandler at hx
  unfold MsgFits
  cases hbytes : msg.bytes with
  | nil =>
    rw [hbytes] at hx
    cases hx
  | cons code rest =>
    rw [hbytes] at hx
    dsimp only at hx
    rw [getD_cons_zero]
    cases htype : HAMsgType.ofCode code with
    | heartbeat =>
      rw [htype] at hx
      dsimp only at hx
      split at hx
      · cases hx
        exact ⟨h, .nil⟩
      · cases hx
      · cases hx
        exact ⟨h, .nil⟩
    | cmd =>
      rw [htype] at hx
      obtain ⟨out, hout, rfl⟩ := Option.map_eq_some_iff.mp hx
      refine ⟨h, (sized_handleCmd hout).congr ((hmsg.cmdFits_iff _ _).trans ?_)⟩
      rw [hbytes]
      simp
    | coreStat =>
      rw [htype] at hx
      obtain ⟨y, hy, rfl⟩ := Option.map_eq_some_iff.mp hx
      exact coreStat_requestHandler h hy
    | haConn =>
      rw [htype] at hx
      obtain ⟨m', hm', hx⟩ := Option.bind_eq_some_iff.mp hx
      have hfresh := fresh_connect h hm'
      refine ⟨fresh_distribute hfresh hx, (sized_distribute hfresh hx).congr ?_⟩
      simp [hm']
    | domainMap | other _ =>
      rw [htype] at hx
      cases hx
      exact ⟨h, .nil⟩

theorem client_requestHandler {k : HAClient} {session : Option Party} {msg : Content}
    {x : HAClient × List Outgoing} (hmsg : Receivable msg)
    (hx : k.requestHandler session msg = some x) : Sized x.2 True := by
  unfold HAClient.requestHandler at hx
  split at hx
  · cases hx
  · split at hx
    · split at hx
      · cases hx
        exact .single (length_heartbeatMsg _ _) (by decide) (by decide)
      · cases hx
      · cases hx
        exact .nil
    · cases hx
      exact .nil
    · obtain ⟨out, hout, rfl⟩ := Option.map_eq_some_iff.mp hx
      exact (sized_handleCmd hout).congr ((hmsg.cmdFits_iff _ _).trans (by simp))
    · cases hx
    · cases hx
      exact .nil
    · cases hx
      exact .nil

theorem cmdMsg_bytes {type : CmdType} {cmd : Text} (h : 2 ≤ cmdSize cmd.length) :
    (cmdMsg type cmd).bytes
      = HAMsgType.code .cmd :: type.code :: cmd.take (cmd.length % 2 ^ 32) := by
  refine take_of_length_le ?_
  have hsize : cmdSize cmd.length = 2 + cmd.length % 2 ^ 32 := by
    unfold cmdSize at h ⊢
    omega
  rw [length_cons, length_cons, length_take, hsize]
  omega

theorem getCmd_cmdMsg {type : CmdType} {cmd : Text} (h : 2 ≤ cmdSize cmd.length) :
    getCmd (cmdMsg type cmd) = cmd.take (cmd.length % 2 ^ 32) := by
  have hlen : (cmd.take (cmd.length % 2 ^ 32)).length = cmd.length % 2 ^ 32 :=
    length_take_of_le (Nat.mod_le _ _)
  unfold getCmd
  rw [cmdMsg_bytes h, drop_succ_cons, drop_succ_cons, drop_zero, length_cons,
    length_cons, hlen, Nat.add_sub_cancel (m := 2), Nat.mod_mod]
  exact take_of_length_le (Nat.le_of_eq hlen)

theorem sized_processCmd {m : HAManager} {cmd : Text} {out : List Outgoing}
    (h : m.processCmd cmd = some out) : Sized out
      (if cmd.take (cmd.length % 2 ^ 32) = ascii "get_status" then
        LongEnough m.coreStat.printToString.length
      else m.hdcsNodeMap.values ≠ [] → LongEnough cmd.length) := by
  have htwo : 2 ≤ cmdSize cmd.length := by
    rw [← length_cmdMsg .console cmd]
    by_contra hlt
    unfold HAManager.processCmd HAManager.handleMgrRequest handleCmd at h
    rw [getElem?_eq_none (by omega)] at h
    cases h
  refine (sized_handleCmd h).congr ?_
  have hlen : LongEnough (cmd.take (cmd.length % 2 ^ 32)).length ↔ LongEnough cmd.length := by
    unfold LongEnough cmdSize
    rw [length_take_of_le (Nat.mod_le _ _), Nat.mod_mod]
  have htype : CmdType.ofCode ((cmdMsg .console cmd).bytes.getD 1 0) = .console := by
    rw [cmdMsg_bytes htwo]
    rfl
  unfold CmdFits
  rw [htype, getCmd_cmdMsg htwo, hlen]
  simp

/-! ## Steps -/

variable {s s' s₀ : HACluster cfg} {a : Act}

/-- When what a step sends fits. -/
def Fitting (s : HACluster cfg) : Act → Prop
  | .command cmd => LongEnough cmd.length
  | .processCmd cmd =>
    if cmd.take (cmd.length % 2 ^ 32) = ascii "get_status" then
      LongEnough s.manager.coreStat.printToString.length
    else s.manager.hdcsNodeMap.values ≠ [] → LongEnough cmd.length
  | .timeout => ∀ m, s.manager.beforeTimeout cfg = some m → AllServed m
  | .deliver i => ∀ e, s.inFlight[i]? = some e → e.out.receiver = some .manager →
      MsgFits cfg s.manager e.out.content
  | _ => True

structure HAInv (s : HACluster cfg) : Prop where
  receivable : ∀ e ∈ s.inFlight, Receivable e.out.content
  fresh : Fresh s.manager.coreStat.domainMap

structure Sound (s : HACluster cfg) (a : Act) (x : HACluster cfg × Party × List Outgoing) :
    Prop where
  sized : Sized x.2.2 (Fitting s a)
  fresh : Fresh x.1.manager.coreStat.domainMap
  sent : x.1.sent = s.sent
  inFlight : ∀ e ∈ x.1.inFlight, e ∈ s.inFlight

theorem sized_sendStatMap (k : HAClient) (name : Text) : Sized (k.sendStatMap name) True :=
  .single (length_coreStatBytes _ _ _) (by omega)
    (iff_of_true (by unfold crcByteNum; omega) trivial)

theorem sound_deliver {i : Nat} {x : HACluster cfg × Party × List Outgoing} (h : HAInv s)
    (hx : s.effect (.deliver i) = some x) : Sound s (.deliver i) x := by
  obtain ⟨e, he, hx⟩ := Option.bind_eq_some_iff.mp hx
  have hmsg := h.receivable e (mem_of_getElem? he)
  have hmem : ∀ e' ∈ s.inFlight.eraseIdx i, e' ∈ s.inFlight := fun _ => mem_of_mem_eraseIdx
  unfold HACluster.receive at hx
  cases hreceiver : e.out.receiver with
  | none =>
    rw [hreceiver] at hx
    cases hx
  | some receiver =>
    rw [hreceiver] at hx
    cases receiver with
    | manager =>
      obtain ⟨y, hy, rfl⟩ := Option.map_eq_some_iff.mp hx
      obtain ⟨hfresh, hsized⟩ := manager_requestHandler h.fresh hmsg hy
      refine ⟨hsized.congr ?_, hfresh, rfl, hmem⟩
      simp [Fitting, he, hreceiver]
    | client name =>
      dsimp only at hx
      split at hx
      · obtain ⟨y, hy, rfl⟩ := Option.map_eq_some_iff.mp hx
        refine ⟨(client_requestHandler hmsg hy).congr ?_, h.fresh, rfl, hmem⟩
        simp [Fitting, he, hreceiver]
      · cases hx
    | console =>
      cases hx
      refine ⟨Sized.nil.congr ?_, h.fresh, rfl, hmem⟩
      simp [Fitting, he, hreceiver]

theorem sound_effect {x : HACluster cfg × Party × List Outgoing} (h : HAInv s)
    (hx : s.effect a = some x) : Sound s a x := by
  cases a with
  | newClient name =>
    rw [effect] at hx
    split at hx
    · cases hx
      exact ⟨.nil, h.fresh, rfl, fun _ => id⟩
    · cases hx
  | addHaServer name =>
    rw [effect] at hx
    split at hx
    · cases hx
      refine ⟨?_, h.fresh, rfl, fun _ => id⟩
      exact ((Sized.single (P := True) (length_haConnMsg name) (by decide) (by decide)).append
        (sized_sendStatMap _ name)).congr (by simp [Fitting])
    · cases hx
  | registerCore name core | unregisterCore name core =>
    obtain ⟨k, -, rfl⟩ := Option.map_eq_some_iff.mp hx
    exact ⟨.nil, h.fresh, rfl, fun _ => id⟩
  | updateStat name core stat =>
    obtain ⟨k, -, hx⟩ := Option.bind_eq_some_iff.mp hx
    obtain ⟨y, hy, rfl⟩ := Option.map_eq_some_iff.mp hx
    rw [HAClient.updateStat] at hy
    split at hy
    · cases hy
      exact ⟨sized_sendStatMap _ name, h.fresh, rfl, fun _ => id⟩
    · cases hy
  | command cmd =>
    cases hx
    exact ⟨sized_cmd _ _ _ cmd, h.fresh, rfl, fun _ => id⟩
  | processCmd cmd =>
    obtain ⟨out, hout, rfl⟩ := Option.map_eq_some_iff.mp hx
    exact ⟨sized_processCmd hout, h.fresh, rfl, fun _ => id⟩
  | unregisterHdcsNode addr =>
    cases hx
    exact ⟨.nil, h.fresh, rfl, fun _ => id⟩
  | ping addr instId =>
    obtain ⟨out, hout, rfl⟩ := Option.map_eq_some_iff.mp hx
    obtain ⟨node, -, rfl⟩ := Option.map_eq_some_iff.mp hout
    exact ⟨.single (length_heartbeatMsg _ _) (by decide) (iff_of_true (by decide) trivial),
      h.fresh, rfl, fun _ => id⟩
  | heartbeatFailed addr =>
    obtain ⟨node, -, hx⟩ := Option.bind_eq_some_iff.mp hx
    obtain ⟨m, hm, rfl⟩ := Option.map_eq_some_iff.mp hx
    obtain ⟨m', hm', rfl⟩ := Option.map_eq_some_iff.mp hm
    have hfresh := fresh_managerStat
      (m := { s.manager with connMap := s.manager.connMap.erase node }) h.fresh hm'
    exact ⟨.nil, hfresh, rfl, fun _ => id⟩
  | timeout =>
    obtain ⟨y, hy, rfl⟩ := Option.map_eq_some_iff.mp hx
    obtain ⟨m, hm, hy⟩ := Option.bind_eq_some_iff.mp hy
    obtain ⟨z, hz, rfl⟩ := Option.map_eq_some_iff.mp hy
    have hfresh := fresh_beforeTimeout h.fresh hm
    refine ⟨(sized_distribute hfresh hz).congr ?_, fresh_distribute hfresh hz, rfl, fun _ => id⟩
    simp [Fitting, hm]
  | deliver i => exact sound_deliver h hx

theorem haInv_step (h : HAInv s) (hs : s.step a = some s') : HAInv s' := by
  obtain ⟨x, hx, rfl⟩ := Option.map_eq_some_iff.mp hs
  have hsound := sound_effect h hx
  refine ⟨fun e he => ?_, hsound.fresh⟩
  rcases mem_append.mp he with he | he
  · exact h.receivable e (hsound.inFlight e he)
  · obtain ⟨hmem, hfits⟩ := mem_filter.mp he
    obtain ⟨o, ho, rfl⟩ := mem_map.mp hmem
    exact ⟨(fits_iff_framed _).mp hfits, hsound.sized.small o ho⟩

theorem haInv_new (h : HACluster.new cfg = some s₀) : HAInv s₀ := by
  obtain ⟨m, hm, rfl⟩ := Option.map_eq_some_iff.mp h
  rw [HAManager.new] at hm
  split at hm
  · obtain ⟨d, hd, rfl⟩ := Option.map_eq_some_iff.mp hm
    exact ⟨fun e he => absurd he (by simp), fresh_new hd⟩
  · cases hm

/-- Everything that was passed to the messenger has bytes enough. -/
def AllFramed (s : HACluster cfg) : Prop := ∀ e ∈ s.sent, Framed e.out

theorem allFramed_step (h : HAInv s) (hs : s.step a = some s') :
    AllFramed s' ↔ AllFramed s ∧ Fitting s a := by
  obtain ⟨x, hx, rfl⟩ := Option.map_eq_some_iff.mp hs
  have hsound := sound_effect h hx
  have hnew : (∀ e ∈ x.2.2.map (Envelope.mk x.2.1), Framed e.out) ↔ Fitting s a := by
    rw [forall_mem_map]
    exact hsound.sized.fits
  unfold AllFramed
  show (∀ e ∈ x.1.sent ++ x.2.2.map (Envelope.mk x.2.1), Framed e.out) ↔ _
  rw [forall_mem_append, hsound.sent, hnew]

/--
**When the messages of the HA layer have bytes enough.** In a run in which every command has a text
of six bytes and more, the same holds for the status that is asked for, and every node that gets its
domain item is a master which, if it has a slave, is online, all messages have bytes enough; and
from any state of any run, what a step sends has if and only if that holds for the step.
-/
theorem haMessages_framed (hnew : HACluster.new cfg = some s₀) :
    (∀ s, Reachable step Fitting s₀ s → AllFramed s)
      ∧ ∀ s, Reachable step (fun _ _ => True) s₀ s → ∀ a s', s.step a = some s' →
        (AllFramed s' ↔ AllFramed s ∧ Fitting s a) := by
  have hinv : ∀ {ok : HACluster cfg → Act → Prop} {s : HACluster cfg},
      Reachable step ok s₀ s → HAInv s := fun hs =>
    Reachable.invariant (haInv_new hnew) (fun _ _ _ hinv _ hstep => haInv_step hinv hstep) hs
  refine ⟨fun s hs => ?_, fun s hs a s' hstep => allFramed_step (hinv hs) hstep⟩
  induction hs with
  | init =>
    obtain ⟨m, hm, rfl⟩ := Option.map_eq_some_iff.mp hnew
    exact fun e he => nomatch he
  | tail hs hok hstep ih => exact (allFramed_step (hinv hs) hstep).mpr ⟨ih, hok⟩

/-! ## Two masters and their slaves -/

def pairsConfig : HAConfig where
  managerName := ascii "HDCSManager"
  hostList := [ascii "node1", ascii "node1_slave", ascii "node2", ascii "node2_slave"]
  hostAddr := some
  replicationCount := 2
  rule := firstRule

theorem exists_of_run {acts : List Act} {p : HACluster cfg → Bool}
    (h : ((HACluster.new cfg).bind fun s₀ => (run step (fun _ _ => True) s₀ acts).map p)
      = some true) : ∃ s₀ s, HACluster.new cfg = some s₀
        ∧ Reachable step (fun _ _ => True) s₀ s ∧ p s = true := by
  obtain ⟨s₀, hnew, h⟩ := Option.bind_eq_some_iff.mp h
  obtain ⟨s, hs, hp⟩ := Reachable.of_run_test h
  exact ⟨s₀, s, hnew, hs, hp⟩

/-- How many bytes each message has. -/
def sentSizes (s : HACluster cfg) : List Nat := s.sent.map fun e => e.out.content.bytes.length

theorem exists_short (acts : List Act) {sizes : List Nat}
    (h : ((HACluster.new cfg).bind fun s₀ => (run step (fun _ _ => True) s₀ acts).map
      fun s => decide (sentSizes s = sizes)) = some true) (hshort : ∃ n ∈ sizes, n < crcByteNum) :
    ∃ s₀ s, HACluster.new cfg = some s₀ ∧ Reachable step (fun _ _ => True) s₀ s
      ∧ sentSizes s = sizes ∧ ¬ AllFramed s := by
  obtain ⟨s₀, s, hnew, hs, htest⟩ := exists_of_run h
  have hsizes := of_decide_eq_true htest
  refine ⟨s₀, s, hnew, hs, hsizes, fun hall => ?_⟩
  obtain ⟨n, hn, hlt⟩ := hshort
  rw [← hsizes] at hn
  obtain ⟨e, he, rfl⟩ := mem_map.mp hn
  exact absurd (hall e he) (Nat.not_le_of_lt hlt)

/-- A master connects: it gets an item with itself and the slave of the other one. -/
theorem master_served : ∃ s₀ s : HACluster pairsConfig, HACluster.new pairsConfig = some s₀
    ∧ Reachable step (fun _ _ => True) s₀ s
    ∧ (∃ s', s.step (.deliver 0) = some s' ∧ sentSizes s' = [33, 34, 65])
    ∧ Fitting s (.deliver 0) := by
  have hrun : ((HACluster.new pairsConfig).bind fun s₀ =>
      (run step (fun _ _ => True) s₀
        [.newClient (ascii "node1"), .addHaServer (ascii "node1")]).map fun s =>
          decide ((s.step (.deliver 0)).map sentSizes = some [33, 34, 65])) = some true := by
    decide +kernel
  obtain ⟨s₀, s, hnew, hs, htest⟩ := exists_of_run hrun
  obtain ⟨s', hs', hsizes⟩ := Option.map_eq_some_iff.mp (of_decide_eq_true htest)
  refine ⟨s₀, s, hnew, hs, ⟨s', hs', hsizes⟩, ?_⟩
  refine (((haMessages_framed hnew).2 s hs _ s' hs').mp fun e he => ?_).2
  have hmem : e.out.content.bytes.length ∈ sentSizes s' := mem_map.mpr ⟨e, he, rfl⟩
  rw [hsizes] at hmem
  show 8 ≤ e.out.content.bytes.length
  simp only [mem_cons, not_mem_nil, or_false] at hmem
  omega

/--
A slave connects, and gets its domain item: one byte. A master reports that a core has failed, and
gets its own: one byte. A command of two letters: four bytes.
-/
theorem short_messages :
    (∃ s₀ s : HACluster pairsConfig, HACluster.new pairsConfig = some s₀
      ∧ Reachable step (fun _ _ => True) s₀ s ∧ sentSizes s = [33, 34, 1] ∧ ¬ AllFramed s)
      ∧ (∃ s₀ s : HACluster pairsConfig, HACluster.new pairsConfig = some s₀
        ∧ Reachable step (fun _ _ => True) s₀ s ∧ sentSizes s = [33, 34, 65, 50, 1]
        ∧ ¬ AllFramed s)
      ∧ ∃ s₀ s : HACluster pairsConfig, HACluster.new pairsConfig = some s₀
        ∧ Reachable step (fun _ _ => True) s₀ s ∧ sentSizes s = [4] ∧ ¬ AllFramed s := by
  refine ⟨?_, ?_, ?_⟩
  · exact exists_short [.newClient (ascii "node1_slave"),
      .addHaServer (ascii "node1_slave"), .deliver 0] (by decide +kernel) (by decide)
  · exact exists_short [.newClient (ascii "node1"), .addHaServer (ascii "node1"),
      .deliver 0, .registerCore (ascii "node1") 7, .updateStat (ascii "node1") 7 .error,
      .deliver 2] (by decide +kernel) (by decide)
  · exact exists_short [.command (ascii "ls")] (by decide +kernel) (by decide)

end HDCS.Proof
