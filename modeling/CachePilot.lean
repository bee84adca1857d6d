import CachePilot.Conf.Gate
import CachePilot.Conf.IndexDefault
import CachePilot.Conf.TagHeaders
import CachePilot.Live.CacheGet
import CachePilot.Live.Reload
import CachePilot.Metrics.Page
import CachePilot.Metrics.Requests
import CachePilot.Metrics.Snapshot
import CachePilot.Protocol.Bootstrap
import CachePilot.Protocol.TagPurge
import CachePilot.Purge.Body
import CachePilot.Purge.FailedUnlink
import CachePilot.Purge.TaggedRuns
import CachePilot.Purge.Size
import CachePilot.Purge.StaleEntries
import CachePilot.Purge.TagOutcome
import CachePilot.Scan.Agree
import CachePilot.Scan.Bounds
import CachePilot.Scan.Recursive
import CachePilot.Scan.TokenLaw
import CachePilot.Scan.Failures
import CachePilot.Store.Accounting
import CachePilot.Store.PathRuns
import CachePilot.Store.ZoneTimes
