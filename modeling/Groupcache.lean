import Groupcache.Lib.Run
import Groupcache.Lib.Termination
import Groupcache.Lib.Ring
import Groupcache.Lib.Lru
import Groupcache.Lib.Linearizability
import Groupcache.Lib.Percent
import Groupcache.Lib.Utf8
import Groupcache.Lib.Ledger
import Groupcache.MutexCache
import Groupcache.CacheRuns
import Groupcache.Internal.LruRuns
import Groupcache.Internal.SingleflightSafety
import Groupcache.Transport.HttpTransport
import Groupcache.Transport.Server
import Groupcache.Transport.RoundTrip
import Groupcache.Transport.ByteViewOps
import Groupcache.Transport.Sinks
import Groupcache.Transport.SinkRuns
import Groupcache.Ownership
import Groupcache.PeerUpdates
import Groupcache.RemoveKeys
import Groupcache.MemoryBound
import Groupcache.GetRule
import Groupcache.Expiry
import Groupcache.OwnerErrors
import Groupcache.PeerFailures
import Groupcache.RemoveFailures
import Groupcache.FanInCalls
import Groupcache.Staleness
import Groupcache.RemoveKeysFailures
import Groupcache.StaleLoads
import Groupcache.LostWrites
import Groupcache.SharedLoad
import Groupcache.CallProgress
import Groupcache.Panics
import Groupcache.GroupStats
import Groupcache.LoadStats
import Groupcache.Authority
import Groupcache.GetPaths
import Groupcache.Provenance
import Groupcache.Availability
import Groupcache.Membership
import Groupcache.Convergence
import Groupcache.ClusterReturns
import Groupcache.Contrib.Otter
import Groupcache.Contrib.OtterConcurrent
import Groupcache.Contrib.OtterStats
import Groupcache.NewGroup
import Groupcache.ManagedCluster
import Groupcache.Lifecycle
