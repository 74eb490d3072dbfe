import Mathlib.Data.List.Lex
import HDCS.Core.Message

/-!
# The messages of the HA layer

`HDCSDomainMapRequestHandler.h`, `HACmdHandler.h`, `HDCSCoreStatController.h`, `HACore.h` and
`HeartBeat.h`: how the five kinds of messages are put together, and what a receiver takes out of
them again. Every kind begins with a byte that tells which it is.

A message is a buffer that is allocated first and filled with `memcpy`. The sizes of the copies are
those of what is copied, so a name can get over the end of its field. What gets over the end of the
buffer is left out here, and padding is zero.
-/

namespace HDCS

open Lib List

/-- A `std::string`: the name of a node, an address, a command. -/
abbrev Text := List UInt8

/-- A literal of the source. -/
def ascii (s : String) : Text := s.toList.map fun c => UInt8.ofNat c.toNat

inductive HAMsgType where
  | heartbeat | coreStat | domainMap | cmd | haConn
  | other (code : UInt8)
  deriving DecidableEq, Repr

namespace HAMsgType

def code : HAMsgType → UInt8
  | .heartbeat => 0x31
  | .coreStat => 0x32
  | .domainMap => 0x33
  | .cmd => 0x34
  | .haConn => 0x35
  | .other code => code

def ofCode : UInt8 → HAMsgType
  | 0x31 => .heartbeat
  | 0x32 => .coreStat
  | 0x33 => .domainMap
  | 0x34 => .cmd
  | 0x35 => .haConn
  | code => .other code

end HAMsgType

/-! ## Domain items -/

def domainItemBytes (item : List Text) : List UInt8 :=
  -- a `uint8_t`
  let replicationNum := item.length % 256
  item.zipIdx.foldl (fun buf x => Wire.overwrite buf (1 + 32 * x.2) x.1)
    ((List.replicate (1 + 32 * replicationNum) 0).set 0 (HAMsgType.code .domainMap))

theorem length_domainItemBytes (item : List Text) :
    (domainItemBytes item).length = 1 + 32 * (item.length % 256) := by
  rw [domainItemBytes, Wire.length_foldl_overwrite (fun x => 1 + 32 * x.2) Prod.fst,
    length_set, length_replicate]

/-- `HDCS_DOMAIN_ITEM_MSG`. -/
def domainItemMsg (item : List Text) : Content where
  bytes := domainItemBytes item
  size_lt := by
    rw [length_domainItemBytes]
    omega

def getDomainItem (c : Content) : List Text :=
  (List.range ((c.bytes.length - 1) / 32 % 256)).map fun i =>
    Wire.cString (c.bytes.drop (1 + 32 * i))

/-! ## Commands -/

inductive CmdType where
  | request | reply | console | consoleReply
  | other (code : UInt8)
  deriving DecidableEq, Repr

namespace CmdType

def code : CmdType → UInt8
  | .request => 0xC0
  | .reply => 0xC1
  | .console => 0xC2
  | .consoleReply => 0xC3
  | .other code => code

def ofCode : UInt8 → CmdType
  | 0xC0 => .request
  | 0xC1 => .reply
  | 0xC2 => .console
  | 0xC3 => .consoleReply
  | code => .other code

end CmdType

/-- `size` of a `HDCS_CMD_MSG`, for a text of so many bytes: `data_size` is a `uint32_t`. -/
def cmdSize (n : Nat) : Nat := (2 + n % 2 ^ 32) % 2 ^ 32

theorem cmdSize_lt (n : Nat) : cmdSize n < 2 ^ 32 := Nat.mod_lt _ (by decide)

def cmdMsg (type : CmdType) (cmd : Text) : Content where
  bytes := (HAMsgType.code .cmd :: type.code :: cmd.take (cmd.length % 2 ^ 32)).take
    (cmdSize cmd.length)
  size_lt := by
    rw [length_take]
    have := cmdSize_lt cmd.length
    omega

theorem length_cmdMsg (type : CmdType) (cmd : Text) :
    (cmdMsg type cmd).bytes.length = cmdSize cmd.length := by
  show ((_ :: _ :: cmd.take (cmd.length % 2 ^ 32)).take (cmdSize cmd.length)).length = _
  rw [length_take, length_cons, length_cons, length_take]
  have hle : cmdSize cmd.length ≤ 2 + cmd.length % 2 ^ 32 := Nat.mod_le _ _
  have hmod := Nat.mod_le cmd.length (2 ^ 32)
  omega

def getCmd (c : Content) : Text := (c.bytes.drop 2).take ((c.bytes.length - 2) % 2 ^ 32)

theorem length_getCmd (c : Content) : (getCmd c).length = (c.bytes.length - 2) % 2 ^ 32 := by
  rw [getCmd, length_take, length_drop]
  exact Nat.min_eq_left (Nat.mod_le _ _)

/-! ## Node and core status -/

/-- `HDCS_NODE_STAT_TYPE`. -/
inductive NodeStat where
  | up | down | prep
  | other (code : UInt8)
  deriving DecidableEq, Repr

namespace NodeStat

def code : NodeStat → UInt8
  | .up => 0xDA
  | .down => 0xDB
  | .prep => 0xDC
  | .other code => code

def ofCode : UInt8 → NodeStat
  | 0xDA => .up
  | 0xDB => .down
  | 0xDC => .prep
  | code => .other code

theorem code_ofCode (b : UInt8) : (ofCode b).code = b := by
  unfold ofCode
  split <;> rfl

end NodeStat

/-- `HDCS_CORE_STAT_TYPE`. -/
inductive CoreStat where
  | ok | error | prepare
  | other (code : UInt8)
  deriving DecidableEq, Repr

namespace CoreStat

def code : CoreStat → UInt8
  | .ok => 0xD0
  | .error => 0xD1
  | .prepare => 0xD2
  | .other code => code

def ofCode : UInt8 → CoreStat
  | 0xD0 => .ok
  | 0xD1 => .error
  | 0xD2 => .prepare
  | code => .other code

theorem code_ofCode (b : UInt8) : (ofCode b).code = b := by
  unfold ofCode
  split <;> rfl

end CoreStat

def coreStatImage (core : UInt64) (stat : CoreStat) : List UInt8 :=
  Wire.encode 8 core.toNat ++ (stat.code :: List.replicate 7 0)

def coreStatBytes (cores : List (UInt64 × CoreStat)) (nodeStat : NodeStat) (name : Text) :
    List UInt8 :=
  -- a `uint8_t`
  let coresNum := cores.length % 256
  let header := Wire.overwrite (((List.replicate (34 + 16 * coresNum) 0).set 0
    (HAMsgType.code .coreStat)).set 33 nodeStat.code) 1 name
  -- `stat_data + index`: a line is not as far from the next as it is long
  cores.zipIdx.foldl (fun buf x =>
    Wire.overwrite buf (34 + x.2 % 256) (coreStatImage x.1.1 x.1.2)) header

theorem length_coreStatBytes (cores : List (UInt64 × CoreStat)) (nodeStat : NodeStat)
    (name : Text) :
    (coreStatBytes cores nodeStat name).length = 34 + 16 * (cores.length % 256) := by
  rw [coreStatBytes, Wire.length_foldl_overwrite
    (fun x : (UInt64 × CoreStat) × Nat => 34 + x.2 % 256)
    (fun x => coreStatImage x.1.1 x.1.2), Wire.length_overwrite, length_set, length_set,
    length_replicate]

/-- `HDCS_CORE_STAT_MSG`. -/
def coreStatMsg (cores : List (UInt64 × CoreStat)) (nodeStat : NodeStat) (name : Text) :
    Content where
  bytes := coreStatBytes cores nodeStat name
  size_lt := by
    rw [length_coreStatBytes]
    omega

def getNodeName (c : Content) : Text := Wire.cString (c.bytes.drop 1)

def getNodeStat (c : Content) : NodeStat := .ofCode (c.bytes.getD 33 0)

/-- `get_cores_num` of a message that has a header: a `uint8_t`. -/
def getCoresNum (c : Content) : Nat := (c.bytes.length - 34) / 16 % 256

/-- `readline`: what the bytes from `stat_data + index` on are as a `HDCS_CORE_STAT_T`. -/
def readline (c : Content) (index : Nat) : UInt64 × CoreStat :=
  let image := (c.bytes.drop (34 + index % 256)).take 16
  (UInt64.ofNat (Wire.decode (image.take 8)), .ofCode (image.getD 8 0))

/-! ## Connections and heartbeats -/

def haConnMsg (name : Text) : Content where
  bytes := Wire.overwrite ((List.replicate 33 0).set 0 (HAMsgType.code .haConn)) 1 name
  size_lt := by
    rw [Wire.length_overwrite, length_set, length_replicate]
    omega

theorem length_haConnMsg (name : Text) : (haConnMsg name).bytes.length = 33 := by
  show (Wire.overwrite _ 1 name).length = 33
  rw [Wire.length_overwrite, length_set, length_replicate]

inductive HeartbeatType where
  | ping | reply
  | other (code : UInt8)
  deriving DecidableEq, Repr

namespace HeartbeatType

def code : HeartbeatType → UInt8
  | .ping => 0xE2
  | .reply => 0xE3
  | .other code => code

def ofCode : UInt8 → HeartbeatType
  | 0xE2 => .ping
  | 0xE3 => .reply
  | code => .other code

end HeartbeatType

/-- `HDCS_HEARTBEAT_MSG`: two types, six bytes of padding, and who is to be told. -/
def heartbeatMsg (type : HeartbeatType) (instId : UInt64) : Content where
  bytes := HAMsgType.code .heartbeat :: type.code :: (List.replicate 6 0
    ++ Wire.encode 8 instId.toNat)
  size_lt := by
    rw [length_cons, length_cons, length_append, Wire.length_encode, length_replicate]
    omega

theorem length_heartbeatMsg (type : HeartbeatType) (instId : UInt64) :
    (heartbeatMsg type instId).bytes.length = 16 := by
  show (_ :: _ :: (List.replicate 6 0 ++ Wire.encode 8 instId.toNat)).length = 16
  rw [length_cons, length_cons, length_append, Wire.length_encode, length_replicate]

def getInstId (c : Content) : UInt64 := UInt64.ofNat (Wire.decode ((c.bytes.drop 8).take 8))

end HDCS
