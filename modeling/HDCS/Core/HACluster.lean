import HDCS.Core.HAManager
import HDCS.Lib.Machine

/-!
# A manager, its clients, and the console

`HAClient.h` and `HDCSAdmin.cpp`, and everything together: messages go from one party to another,
and arrive in any order. A message whose content is too short for the check bytes
(`Message.new`) does not get on its way; that it was passed to the messenger is kept.
-/

namespace HDCS

/-! ## Clients -/

structure HAClient where
  /-- `conn` of the `HDCSCoreStatController` is set. -/
  connected : Bool
  /-- `hdcs_core_stat_map`. -/
  cores : Std.TreeMap UInt64 CoreStat
  nodeStat : NodeStat
  domainItem : List Text

namespace HAClient

def new : HAClient := ⟨false, ∅, .up, []⟩

def sendStatMap (k : HAClient) (name : Text) : List Outgoing :=
  [⟨some .manager, true, coreStatMsg k.cores.toList k.nodeStat name⟩]

def addHaServer (k : HAClient) (name : Text) : HAClient × List Outgoing :=
  ({ k with connected := true }, ⟨some .manager, true, haConnMsg name⟩ :: k.sendStatMap name)

def registerCore (k : HAClient) (core : UInt64) : HAClient :=
  if core ∈ k.cores then k else { k with cores := k.cores.insert core .ok }

def unregisterCore (k : HAClient) (core : UInt64) : HAClient :=
  { k with cores := k.cores.erase core }

def refreshStatMap (k : HAClient) : HAClient :=
  if k.cores.values.any (· == .error) then { k with nodeStat := .down } else k

def updateStat (k : HAClient) (name : Text) (core : UInt64) (stat : CoreStat) :
    Option (HAClient × List Outgoing) :=
  if k.connected then
    -- a core that is not registered any more is told too
    let k := if core ∈ k.cores then { k with cores := k.cores.insert core stat } else k
    some (k.refreshStatMap, k.refreshStatMap.sendStatMap name)
  else none

def requestHandler (k : HAClient) (session : Option Party) (msg : Content) :
    Option (HAClient × List Outgoing) :=
  match msg.bytes with
  | [] => none
  | code :: _ =>
    match HAMsgType.ofCode code with
    | .heartbeat =>
      match HeartbeatType.ofCode (msg.bytes.getD 1 0) with
      | .ping => some (k, [⟨session, false, heartbeatMsg .reply (getInstId msg)⟩])
      -- the id is a pointer of another process
      | .reply => none
      | .other _ => some (k, [])
    | .domainMap => some ({ k with domainItem := getDomainItem msg }, [])
    | .cmd => (handleCmd [] none session msg).map fun out => (k, out)
    -- no node is listed here
    | .coreStat => none
    | .haConn => some (k, [])
    | .other _ => some (k, [])

end HAClient

/-! ## The cluster -/

structure Envelope where
  sender : Party
  out : Outgoing

def Envelope.session (e : Envelope) : Option Party :=
  if e.out.onConnection then some e.sender else none

def Envelope.fits (e : Envelope) : Bool := (Message.new e.out.content 0).isSome

/-- The manager, the clients, and what is between them. -/
structure HACluster (cfg : HAConfig) where
  manager : HAManager
  clients : Std.TreeMap Text HAClient
  /-- Everything that was passed to the messenger. -/
  sent : List Envelope
  inFlight : List Envelope

namespace HACluster

variable {cfg : HAConfig}

def new (cfg : HAConfig) : Option (HACluster cfg) :=
  (HAManager.new cfg).map fun m => ⟨m, ∅, [], []⟩

inductive Act where
  | newClient (name : Text)
  | addHaServer (name : Text)
  | registerCore (name : Text) (core : UInt64)
  | unregisterCore (name : Text) (core : UInt64)
  | updateStat (name : Text) (core : UInt64) (stat : CoreStat)
  /-- `HDCSAdmin` is run. -/
  | command (cmd : Text)
  /-- `process_cmd` of the manager. -/
  | processCmd (cmd : Text)
  | unregisterHdcsNode (addr : Text)
  /-- The heartbeat for an address pings its node. -/
  | ping (addr : Text) (instId : UInt64)
  /-- It has not been answered. -/
  | heartbeatFailed (addr : Text)
  | timeout
  /-- A message arrives. -/
  | deliver (i : Nat)

def post (s : HACluster cfg) (sender : Party) (out : List Outgoing) : HACluster cfg :=
  let envelopes := out.map (⟨sender, ·⟩)
  { s with
    sent := s.sent ++ envelopes
    inFlight := s.inFlight ++ envelopes.filter Envelope.fits }

def setClient (s : HACluster cfg) (name : Text) (k : HAClient) : HACluster cfg :=
  { s with clients := s.clients.insert name k }

def receive (s : HACluster cfg) (e : Envelope) : Option (HACluster cfg × Party × List Outgoing) :=
  match e.out.receiver with
  | some .manager =>
    (s.manager.requestHandler cfg e.session e.out.content).map fun x =>
      ({ s with manager := x.1 }, .manager, x.2)
  | some (.client name) =>
    match s.clients[name]? with
    | some k => (k.requestHandler e.session e.out.content).map fun x =>
      (s.setClient name x.1, .client name, x.2)
    | none => none
  -- the answer is printed
  | some .console => some (s, .console, [])
  | none => none

def effect (s : HACluster cfg) : Act → Option (HACluster cfg × Party × List Outgoing)
  | .newClient name =>
    match s.clients[name]?, cfg.hostAddr name with
    | none, some _ => some (s.setClient name .new, .client name, [])
    | _, _ => none
  | .addHaServer name =>
    match s.clients[name]?, cfg.hostAddr cfg.managerName with
    | some k, some _ =>
      some (s.setClient name (k.addHaServer name).1, .client name, (k.addHaServer name).2)
    | _, _ => none
  | .registerCore name core =>
    (s.clients[name]?).map fun k => (s.setClient name (k.registerCore core), .client name, [])
  | .unregisterCore name core =>
    (s.clients[name]?).map fun k => (s.setClient name (k.unregisterCore core), .client name, [])
  | .updateStat name core stat =>
    (s.clients[name]?).bind fun k => (k.updateStat name core stat).map fun x =>
      (s.setClient name x.1, .client name, x.2)
  | .command cmd => some (s, .console, [⟨some .manager, true, cmdMsg .console cmd⟩])
  | .processCmd cmd => (s.manager.processCmd cmd).map fun out => (s, .manager, out)
  | .unregisterHdcsNode addr =>
    some ({ s with manager := s.manager.unregisterHdcsNode addr }, .manager, [])
  | .ping addr instId => (s.manager.heartbeatPing addr instId).map fun out => (s, .manager, out)
  | .heartbeatFailed addr =>
    (s.manager.hbMap[addr]?).bind fun node => (s.manager.heartbeatFailed node).map fun m =>
      ({ s with manager := m }, .manager, [])
  | .timeout => (s.manager.timeout cfg).map fun x => ({ s with manager := x.1 }, .manager, x.2)
  | .deliver i =>
    (s.inFlight[i]?).bind fun e => { s with inFlight := s.inFlight.eraseIdx i }.receive e

def step (s : HACluster cfg) (a : Act) : Option (HACluster cfg) :=
  (s.effect a).map fun x => x.1.post x.2.1 x.2.2

end HACluster

end HDCS
