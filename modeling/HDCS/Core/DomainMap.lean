import HDCS.Core.HAMessage

/-!
# The domain map

`CrushMapGenerator.h` and `HDCSDomainMap.h`. A host whose name ends in `slave` is a slave, every
other host is a master. The domain item of a master has the master itself and the slaves that are
chosen for it, with `libcrush`. The map is made anew whenever a host comes or goes.

`std::map`s are ordered by their keys, and so are these. What `crush_do_rule` chooses depends on the
input and on the weights, where the number of hosts is fixed.
-/

namespace HDCS

/-- `crush_do_rule`, on the map that `finalize_host_tree` has built. -/
structure CrushRule where
  /-- At most `resultMax` devices, for an input and the weights. -/
  doRule (resultMax x : Nat) (weights : List Nat) : List Nat
  length_doRule_le (resultMax x : Nat) (weights : List Nat) :
    (doRule resultMax x weights).length ≤ resultMax

structure CrushMapGenerator where
  rule : CrushRule
  replicationCount : UInt8
  /-- `host_map`, with the `host_index`. -/
  hostMap : Std.TreeMap Text Nat
  hostCount : Nat
  weights : List Nat

namespace CrushMapGenerator

def new (rule : CrushRule) (replicationCount : UInt8) : CrushMapGenerator :=
  ⟨rule, replicationCount, ∅, 0, []⟩

def addHost (c : CrushMapGenerator) (host : Text) : CrushMapGenerator :=
  if host ∈ c.hostMap then c
  else { c with hostMap := c.hostMap.insert host c.hostCount, hostCount := c.hostCount + 1 }

def build (c : CrushMapGenerator) (hosts : List Text) : CrushMapGenerator :=
  let c := hosts.foldl addHost c
  -- `finalize_host_tree`
  { c with weights := List.replicate c.hostCount 0x10000 }

/-- `offline_host`, `online_host`: both set the weight of a host that is in the map. -/
def setWeight (c : CrushMapGenerator) (host : Text) (weight : Nat) : CrushMapGenerator :=
  match c.hostMap[host]? with
  | some index => { c with weights := c.weights.set index weight }
  | none => c

def offlineHost (c : CrushMapGenerator) (host : Text) : CrushMapGenerator := c.setWeight host 0

def onlineHost (c : CrushMapGenerator) (host : Text) : CrushMapGenerator :=
  c.setWeight host 0x10000

def nameAll (c : CrushMapGenerator) (result : List Nat) : List Text :=
  c.hostMap.foldl (fun item name index =>
    (item.zip result).map fun x => if index = x.2 then name else x.1)
    (List.replicate result.length [])

/-- `get_host_domain`. The host itself is not chosen: its weight is zero for a while. -/
def getHostDomain (c : CrushMapGenerator) (host : Text) : List Text × CrushMapGenerator :=
  match c.hostMap[host]? with
  | none => ([], c)
  | some index =>
    let doReset := c.weights[index]? ≠ some 0
    let weights := c.weights.set index 0
    let result := c.rule.doRule c.replicationCount.toNat index weights
    (c.nameAll result, { c with weights := if doReset then weights.set index 0x10000 else weights })

def get (c : CrushMapGenerator) : Std.TreeMap Text (List Text) × CrushMapGenerator :=
  c.hostMap.foldl (fun x host _ =>
    let y := x.2.getHostDomain host
    (x.1.insert host y.1, y.2)) (∅, c)

end CrushMapGenerator

/-- `host.compare(host.size()-5, 5, "slave") == 0`, which throws where the name is shorter. -/
def endsInSlave (host : Text) : Option Bool :=
  if host.length < 5 then none else some (host.drop (host.length - 5) == ascii "slave")

/-- `host.substr(0, host.size() - 6)`, where `size` is not signed. -/
def withoutSlave (host : Text) : Text :=
  if host.length < 6 then host else host.take (host.length - 6)

/-- The slave of a master. -/
def slaveOf (host : Text) : Text := host ++ ascii "_slave"

structure HDCSDomainMap where
  domainMap : Std.TreeMap Text (List Text)
  replicationCount : UInt8
  cmap : CrushMapGenerator
  onlineNodeList : List Text

namespace HDCSDomainMap

def insertHost (d : HDCSDomainMap) (host : Text) : Option HDCSDomainMap :=
  (endsInSlave host).map fun slave =>
    if slave then { d with domainMap := d.domainMap.insert (withoutSlave host) [] }
    else { d with onlineNodeList := d.onlineNodeList ++ [host] }

def new (rule : CrushRule) (hostList : List Text) (replicationCount : UInt8) :
    Option HDCSDomainMap :=
  hostList.foldlM insertHost ⟨∅, replicationCount, .new rule (replicationCount - 1), []⟩

def refreshItem (online : List Text) (host : Text) (item : List Text) : List Text :=
  if host ∈ online then host :: item else []

def refreshHost (d : HDCSDomainMap) (host : Text) (item : List Text) : HDCSDomainMap :=
  { d with domainMap := d.domainMap.insert host (refreshItem d.onlineNodeList host item) }

/-- `refresh_domain_map`. The assertion holds: `generate_domain_map` appended the `_slave`. -/
def refreshDomainMap (d : HDCSDomainMap) : HDCSDomainMap :=
  let x := d.cmap.get
  x.1.foldl (fun d host item => d.refreshHost (withoutSlave host) item) { d with cmap := x.2 }

def generateDomainMap (d : HDCSDomainMap) : HDCSDomainMap :=
  let hosts := d.domainMap.foldl (fun hosts host _ => hosts.insert (slaveOf host) ())
    (∅ : Std.TreeMap Text Unit)
  { d with cmap := d.cmap.build hosts.keys }.refreshDomainMap

def offlineHost (d : HDCSDomainMap) (host : Text) : Option HDCSDomainMap :=
  (endsInSlave host).map fun slave =>
    if slave then { d with cmap := d.cmap.offlineHost host }
    else { d with onlineNodeList := d.onlineNodeList.erase host }

def onlineHost (d : HDCSDomainMap) (host : Text) : Option HDCSDomainMap :=
  (endsInSlave host).map fun slave =>
    if slave then { d with cmap := d.cmap.onlineHost host }
    else if host ∈ d.onlineNodeList then d
    else { d with onlineNodeList := d.onlineNodeList ++ [host] }

/-- `get_host_domain_item`. A master that is not in the map gets an item of empty names. -/
def getHostDomainItem (d : HDCSDomainMap) (host : Text) : Option (List Text × HDCSDomainMap) :=
  (endsInSlave host).map fun slave =>
    if slave then ([], d)
    else match d.domainMap[host]? with
      | some item => (item, d)
      | none =>
        let item := List.replicate d.replicationCount.toNat []
        (item, { d with domainMap := d.domainMap.insert host item })

def printToString (d : HDCSDomainMap) : Text :=
  d.domainMap.foldl (fun ss host item =>
    ss ++ (ascii "Host: " ++ host ++ ascii " -> \x7b"
      ++ (item.intersperse (ascii ", ")).flatten ++ ascii "\x7d\n")) []

def printToStringHostWeights (d : HDCSDomainMap) : Text :=
  d.cmap.hostMap.foldl (fun ss host index =>
    ss ++ (ascii "host name: " ++ host ++ ascii ", weight: 0X"
      ++ ascii (String.ofList (Nat.toDigits 16 (d.cmap.weights.getD index 0)))
      ++ ascii "\n")) []

end HDCSDomainMap

end HDCS
