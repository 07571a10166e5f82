import KCensus.Deps.ExecutionOrder
import KCensus.Deps.Visibility
import KCensus.Deps.AcceptOrder
import KCensus.Propagation.Optimal
import KCensus.Propagation.SwiftOptimal
import KCensus.Census.MergeOrder
import KCensus.Deps.Certificates
import KCensus.Deps.Sleeping
import KCensus.Deps.Reads
import KCensus.Deps.GraphFree
import KCensus.Deps.Seen
import KCensus.Deps.AckDecoding
import KCensus.Deps.Reports
import KCensus.Slots.Wakeups
import KCensus.Slots.Payloads
import KCensus.Slots.FastReports
import KCensus.Slots.Sleeping
import KCensus.Deps.Classification
import KCensus.Deps.UidSets
import KCensus.Deps.TableMap
import KCensus.PoolRuns
import KCensus.Sinks.Bundling
import KCensus.Delay.Fifo
import KCensus.Deps.Batches
import KCensus.Slots.LoneSpreads
import KCensus.Slots.Replication
