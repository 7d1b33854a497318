import Psets.ClientModel.Responses
import Psets.Ctconsensus.Agreement
import Psets.Ctstubborn.Consent
import Psets.Cotamer.MutexCancellation
import Psets.Cotamer.DriverQuiescence
import Psets.Cotamer.DriverClock
import Psets.Cotamer.DriverGuard
import Psets.Cotamer.EventMemorySafety
import Psets.Cotamer.FdBodyLifecycle
import Psets.Cotamer.FdControlCoverage
import Psets.Cotamer.FdRebinding
import Psets.Cotamer.QuorumSemantics
import Psets.Cotamer.SmallVectorRefinement
import Psets.Cotamer.TimerHeapOverflow
import Psets.Cotamer.VectoredIo
import Psets.Cotamer.Wakeup
import Psets.Http.Clear
import Psets.Http.Overread
import Psets.Http.Pairing
import Psets.Http.QueryParsing
import Psets.Http.Splitting
import Psets.Http.UrlSplit
import Psets.Pancy.Calls
import Psets.Pancy.Diff
import Psets.Pancy.DiffExact
import Psets.Netsim.AltRouting
import Psets.Netsim.Consumption
import Psets.Netsim.Connections
import Psets.Netsim.Discarded
import Psets.PtBackup.SerialOrder
import Psets.LockSeq.Grammar
import Psets.LockSeq.NoFalseAlarm
import Psets.LockSeq.MutualExclusion
import Psets.LockSeq.NoThrow
import Psets.RpcGame.Turns
import Psets.Ctconsensus.Sessions
import Psets.LockSeq.ParseDigits
import Psets.RpcGame.InputLines
import Psets.RpcGame.Session
import Psets.Jsond.Datagrams
import Psets.Jsond.History
import Psets.Curl.Bridge
