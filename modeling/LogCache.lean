import LogCache.AvlNode
import LogCache.AvlBalance
import LogCache.AvlTree
import LogCache.BinaryHeap
import LogCache.Runs
import LogCache.ListSums
import LogCache.Selections
import LogCache.SyncMap
import LogCache.MapOrders
import LogCache.SortSearch
import LogCache.Slices
import LogCache.CivilTime
import LogCache.NetUrl
import LogCache.JsonText
import LogCache.Runes
import LogCache.Regexps
import LogCache.Envelopes
import LogCache.EnvelopeStore
import LogCache.StoreSteps
import LogCache.StoreTransitions
import LogCache.Truncation
import LogCache.Accounting
import LogCache.StructuralInvariant
import LogCache.OldestKey
import LogCache.GcCadence
import LogCache.Traversal
import LogCache.GetCompleteness
import LogCache.UnfudgedStore
import LogCache.Retention
import LogCache.KeyBounds
import LogCache.MetaReport
import LogCache.GetPages
import LogCache.GetSoundness
import LogCache.PlainQuery
import LogCache.GroupedLimit
import LogCache.ReadPath
import LogCache.ReadTypes
import LogCache.WalkLossless
import LogCache.WalkFailures
import LogCache.Interleaving
import LogCache.Coherence
import LogCache.PutCoherence
import LogCache.Conservation
import LogCache.Readiness
import LogCache.PanicFreedom
import LogCache.Quiescence
import LogCache.SequentialRuns
import LogCache.Routing
import LogCache.Wiring
import LogCache.ClientTables
import LogCache.Replicas
import LogCache.Placement
import LogCache.ExactlyOnce
import LogCache.Draining
import LogCache.ClusterDelivery
import LogCache.IngressProxy
import LogCache.MetaCache
import LogCache.Nozzle
import LogCache.CapiClient
import LogCache.TokenCache
import LogCache.CapiResources
import LogCache.CapiPages
import LogCache.UaaClient
import LogCache.KeyRefresh
import LogCache.RefreshThrottle
import LogCache.Paging
import LogCache.Promql
import LogCache.PromqlPrinter
import LogCache.SourceIds
import LogCache.SourceIdRewriting
import LogCache.QueryConfinement
import LogCache.Querier
import LogCache.MetricNames
import LogCache.MatcherSemantics
import LogCache.SelectSemantics
import LogCache.SelectContract
import LogCache.SeriesSets
import LogCache.SelectOrders
import LogCache.QueryBounds
import LogCache.SeriesIterator
import LogCache.Marshaler
import LogCache.MarshalRoundTrip
import LogCache.Syslog
import LogCache.SyslogIntake
import LogCache.SyslogOrder
import LogCache.Laps
import LogCache.Diode
import LogCache.NozzlePipeline
import LogCache.PeerBuffer
import LogCache.DiodeRace
import LogCache.Base64
import LogCache.Jose
import LogCache.UaaRead
import LogCache.AuthProxy
import LogCache.OctetCounting
import LogCache.Framing
import LogCache.SyslogForwarder
import LogCache.Rounding
import LogCache.JumpHash
import LogCache.MemoryPruning
import LogCache.QueryTimes
import LogCache.QueryApi
import LogCache.QueryAnswers
import LogCache.AccessLog
import LogCache.SearchDepth
