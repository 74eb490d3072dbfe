import HDCS.Core.DomainMap

/-!
# The HA manager

`HAManager.h`, with the parts of `HDCSCoreStatController.h`, `HACmdHandler.h` and
`HeartBeatService.h` that it is made of. What a handler passes to the messenger is in its result. A
failed assertion, an exception that nobody catches and a null pointer that is followed end the
process, and then there is no result.

Connections are named by the node they were made for. The events of the heartbeat timer are taken
to come at any time. `ha_hdcs_core_stat` is left out: it is written only.
-/

namespace HDCS

/-- `HAConfig`, and `libcrush`. -/
structure HAConfig where
  /-- `hdcs_HAManager_name`. -/
  managerName : Text
  /-- `hdcs_host_list`. -/
  hostList : List Text
  /-- `config_data.find`, for where a host listens. -/
  hostAddr : Text → Option Text
  /-- `hdcs_replication_count`, as it is handed to a `uint8_t`. -/
  replicationCount : UInt8
  rule : CrushRule

/-- Who sends messages. -/
inductive Party where
  | manager
  | client (name : Text)
  /-- `HDCSAdmin`. -/
  | console
  deriving DecidableEq, Repr

/-- What is passed to the messenger. -/
structure Outgoing where
  /-- The other end; a session that is not one of the listener has none. -/
  receiver : Option Party
  /-- It goes out on a connection, to a listener that has a session for it. -/
  onConnection : Bool
  content : Content

/-! ## Node status -/

structure CoreStatServer where
  /-- `ha_hdcs_node_stat`. -/
  nodeStat : Std.TreeMap Text NodeStat
  domainMap : HDCSDomainMap

namespace CoreStatServer

def setHostList (c : CoreStatServer) (hostList : List Text) : CoreStatServer :=
  { c with nodeStat := hostList.foldl (fun m host => m.insert host .up) c.nodeStat }

def setStatMap (c : CoreStatServer) (host : Text) (stat : NodeStat) : Option CoreStatServer :=
  if host ∈ c.nodeStat then
    let c := { c with nodeStat := c.nodeStat.insert host stat }
    match stat with
    | .down =>
      (c.domainMap.offlineHost host).map fun d => { c with domainMap := d.refreshDomainMap }
    | .up => (c.domainMap.onlineHost host).map fun d => { c with domainMap := d.refreshDomainMap }
    | _ => some c
  else none

def getHostDomainItem (c : CoreStatServer) (host : Text) : Option (List Text × CoreStatServer) :=
  (c.domainMap.getHostDomainItem host).map fun x => (x.1, { c with domainMap := x.2 })

/-- `request_handler`, up to the reply. A node that is up again does not go online here. -/
def takeStat (c : CoreStatServer) (host : Text) (stat : NodeStat) : Option CoreStatServer :=
  match c.nodeStat[host]? with
  | none => none
  | some old =>
    if old = stat then some c
    else
      let c := { c with nodeStat := c.nodeStat.insert host stat }
      if stat = .down then
        (c.domainMap.offlineHost host).map fun d => { c with domainMap := d.refreshDomainMap }
      else some c

def requestHandler (c : CoreStatServer) (session : Option Party) (msg : Content) :
    Option (CoreStatServer × List Outgoing) :=
  if msg.bytes.length < 34 then none
  else (c.takeStat (getNodeName msg) (getNodeStat msg)).bind fun c =>
    (c.getHostDomainItem (getNodeName msg)).map fun x =>
      (x.2, [⟨session, false, domainItemMsg x.1⟩])

def printToString (c : CoreStatServer) : Text :=
  ascii "HDCS Cluster total nodes number: "
    ++ ascii (String.ofList (Nat.toDigits 10 c.nodeStat.size)) ++ ascii "\n"
    ++ ascii "=== Node Status ===\n"
    ++ c.nodeStat.foldl (fun ss host stat => ss ++ (ascii "node name: " ++ host
      ++ ascii ", status: " ++ ascii (if stat = .up then "UP" else "DOWN") ++ ascii "\n")) []
    ++ ascii "=== Domain Map Status ===\n"
    ++ c.domainMap.printToString ++ c.domainMap.printToStringHostWeights

end CoreStatServer

/-! ## Commands -/

/--
`HACmdHandler::request_handler`, with the nodes that are registered and what `core_stat` prints;
the handler of a client has no `core_stat`.
-/
def handleCmd (nodes : List Text) (status : Option Text) (session : Option Party) (msg : Content) :
    Option (List Outgoing) :=
  match msg.bytes[1]? with
  | none => none
  | some code =>
    match CmdType.ofCode code with
    | .console =>
      if getCmd msg = ascii "get_status" then
        status.map fun reply => [⟨session, false, cmdMsg .consoleReply reply⟩]
      else some (nodes.map fun node =>
        ⟨some (.client node), true, cmdMsg .request (getCmd msg)⟩)
    | .request => some [⟨session, false, cmdMsg .reply (getCmd msg)⟩]
    | .reply => some [⟨session, false, cmdMsg .consoleReply (getCmd msg)⟩]
    | _ => some []

/-! ## The manager -/

inductive TimeoutEvent where
  /-- "Initiation status check." -/
  | statusCheck
  /-- "Hit timer event, send out domain_map." -/
  | layback
  deriving DecidableEq, Repr

structure HAManager where
  /-- `conn_map`, with the address of the node. -/
  connMap : Std.TreeMap Text Text
  /-- `hb_map`: for an address, the node that is pinged. -/
  hbMap : Std.TreeMap Text Text
  /-- `hdcs_node_map` of the `HACmdHandler`. -/
  hdcsNodeMap : Std.TreeMap Text Text
  coreStat : CoreStatServer
  timeoutEvent : Option TimeoutEvent

namespace HAManager

variable (cfg : HAConfig)

/-- The constructor. The manager has to have an address of its own. -/
def new : Option HAManager :=
  if (cfg.hostAddr cfg.managerName).isSome then
    (HDCSDomainMap.new cfg.rule cfg.hostList cfg.replicationCount).map fun d =>
      { connMap := ∅
        hbMap := ∅
        hdcsNodeMap := ∅
        coreStat := CoreStatServer.setHostList ⟨∅, d.generateDomainMap⟩ cfg.hostList
        timeoutEvent := some .statusCheck }
  else none

def setStatMap (m : HAManager) (host : Text) (stat : NodeStat) : Option HAManager :=
  (m.coreStat.setStatMap host stat).map fun c => { m with coreStat := c }

def registerHdcsNode (m : HAManager) (node : Text) : Option HAManager :=
  if node ∈ m.connMap then some m
  else (cfg.hostAddr node).map fun addr =>
    { m with
      connMap := m.connMap.insert node addr
      hbMap := m.hbMap.insert addr node
      hdcsNodeMap := m.hdcsNodeMap.insert addr node }

def unregisterHdcsNode (m : HAManager) (addr : Text) : HAManager :=
  { m with hbMap := m.hbMap.erase addr, hdcsNodeMap := m.hdcsNodeMap.erase addr }

def sendDomainItem (x : HAManager × List Outgoing) (node : Text) :
    Option (HAManager × List Outgoing) :=
  (x.1.coreStat.getHostDomainItem node).map fun y =>
    ({ x.1 with coreStat := y.2 }, x.2 ++ [⟨some (.client node), true, domainItemMsg y.1⟩])

def distributeDomainMap (m : HAManager) : Option (HAManager × List Outgoing) :=
  m.connMap.keys.foldlM sendDomainItem (m, [])

def heartbeatFailed (m : HAManager) (node : Text) : Option HAManager :=
  let m : HAManager := { m with connMap := m.connMap.erase node }
  (m.setStatMap node .down).map fun m =>
    { m with timeoutEvent := m.timeoutEvent.or (some .layback) }

/-- The ping of the heartbeat for an address. The instance is known by its node here. -/
def heartbeatPing (m : HAManager) (addr : Text) (instId : UInt64) : Option (List Outgoing) :=
  (m.hbMap[addr]?).map fun node => [⟨some (.client node), true, heartbeatMsg .ping instId⟩]

def checkStatus (m : HAManager) : Option HAManager :=
  cfg.hostList.foldlM (fun m host =>
    if host = cfg.managerName ∨ host ∈ m.connMap then some m else m.setStatMap host .down) m

def beforeTimeout (m : HAManager) : Option HAManager :=
  match m.timeoutEvent with
  | some .statusCheck => m.checkStatus cfg
  | some .layback => some m
  | none => none

def timeout (m : HAManager) : Option (HAManager × List Outgoing) :=
  (m.beforeTimeout cfg).bind fun m =>
    m.distributeDomainMap.map fun x => ({ x.1 with timeoutEvent := none }, x.2)

def connect (m : HAManager) (node : Text) : Option HAManager :=
  (m.setStatMap node .up).bind (registerHdcsNode cfg · node)

def handleMgrRequest (m : HAManager) (session : Option Party) (msg : Content) :
    Option (List Outgoing) :=
  handleCmd m.hdcsNodeMap.values (some m.coreStat.printToString) session msg

def processCmd (m : HAManager) (cmd : Text) : Option (List Outgoing) :=
  m.handleMgrRequest none (cmdMsg .console cmd)

def requestHandler (m : HAManager) (session : Option Party) (msg : Content) :
    Option (HAManager × List Outgoing) :=
  match msg.bytes with
  | [] => none
  | code :: _ =>
    match HAMsgType.ofCode code with
    | .heartbeat =>
      match HeartbeatType.ofCode (msg.bytes.getD 1 0) with
      -- the next ping is scheduled
      | .reply => some (m, [])
      -- there is no listener to answer a ping with
      | .ping => none
      | .other _ => some (m, [])
    | .domainMap => some (m, [])
    | .cmd => (m.handleMgrRequest session msg).map fun out => (m, out)
    | .coreStat =>
      (m.coreStat.requestHandler session msg).map fun x => ({ m with coreStat := x.1 }, x.2)
    | .haConn => (m.connect cfg (getNodeName msg)).bind distributeDomainMap
    | .other _ => some (m, [])

end HAManager

end HDCS
