import HDCS.Proof.FlushBlock
import HDCS.Proof.Eviction
import HDCS.Proof.FullCache
import HDCS.Proof.Crash
import HDCS.Proof.FailedMiss
import HDCS.Proof.CountedCore
import HDCS.Proof.Parking
import HDCS.Proof.WholeCore
import HDCS.Proof.Framing
import HDCS.Proof.Session
import HDCS.Proof.Tier
import HDCS.Proof.ClientSession
import HDCS.Proof.Sizes
import HDCS.Proof.Oversleep
import HDCS.Proof.HeartBeat
import HDCS.Proof.FlushAll
import HDCS.Proof.DirtyTimeout
import HDCS.Proof.BlockGuard
import HDCS.Proof.MaximalRuns
import HDCS.Proof.OpThreads
import HDCS.Proof.TWorkQueue
import HDCS.Proof.Converge
import HDCS.Proof.HostNames
import HDCS.Proof.NodeStatus
import HDCS.Proof.HAMessage
import HDCS.Proof.CacherRuns
import HDCS.Proof.CacherRequest
import HDCS.Proof.CacherSlots
import HDCS.Proof.DataStore
import HDCS.Proof.CacherQueue
