import MevShare.Amounts
import MevShare.BlockCache
import MevShare.BuilderConsent
import MevShare.BuilderView
import MevShare.BundleHash
import MevShare.BundleJson
import MevShare.BundleText
import MevShare.Cancellation
import MevShare.CancelledRows
import MevShare.Contacts
import MevShare.HintOnce
import MevShare.HintView
import MevShare.JsonRpcCalls
import MevShare.JsonRpcServer
import MevShare.KnownBundles
import MevShare.Matchable
import MevShare.NodeProcess
import MevShare.OmittedMaxBlock
import MevShare.ProcessResult
import MevShare.Queue.Admission
import MevShare.Queue.Blocks
import MevShare.Queue.Config
import MevShare.Queue.Drain
import MevShare.Queue.Order
import MevShare.Queue.Priority
import MevShare.Queue.Retries
import MevShare.Queue.Shutdown
import MevShare.RedisCaches
import MevShare.RefundRequests
import MevShare.Replacement
import MevShare.RevertModes
import MevShare.Rounding
import MevShare.ScheduledJson
import MevShare.SharedBundle
import MevShare.Spike.Delivery
import MevShare.Spike.SingleFlight
import MevShare.Splice
import MevShare.StatsWrites
import MevShare.StoredBody
import MevShare.Superseded
import MevShare.Tables
import MevShare.TargetBlock
import MevShare.Visited
import MevShare.WaitGroups
