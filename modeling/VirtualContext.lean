import VirtualContext.Core.AliasResolution
import VirtualContext.Core.BackfillScope
import VirtualContext.Core.ContextAssembler
import VirtualContext.Core.CoverSets
import VirtualContext.Core.FlatAliases
import VirtualContext.Core.LatestTurn
import VirtualContext.Core.LiveTurnTagIndex
import VirtualContext.Core.PagingManager
import VirtualContext.Core.PresentedSegments
import VirtualContext.Core.ProtectedWindow
import VirtualContext.Core.ResendFrame
import VirtualContext.Core.RetrievalScoring
import VirtualContext.Core.Retriever
import VirtualContext.Core.SegmentChoice
import VirtualContext.Core.SegmentExcerpts
import VirtualContext.Core.SemanticSearch
import VirtualContext.Core.SessionBoundaries
import VirtualContext.Core.SessionHeaders
import VirtualContext.Core.SlidingWindows
import VirtualContext.Core.TagBackfill
import VirtualContext.Core.TagCanonicalizer
import VirtualContext.Core.TagComponents
import VirtualContext.Core.TagSplitter
import VirtualContext.Core.TagSummaries
import VirtualContext.Core.TimeDiversity
import VirtualContext.Core.ToolLoopKeeps
import VirtualContext.Core.TurnNumberAgreement
import VirtualContext.Core.TurnTagLookup
import VirtualContext.Core.Watermark
import VirtualContext.Core.WindowFacts
import VirtualContext.Ingest.ConversationIsolation
import VirtualContext.Ingest.DateResolver
import VirtualContext.Ingest.DateWords
import VirtualContext.Ingest.RelativeDates
import VirtualContext.Ingest.SupersessionChains
import VirtualContext.Ingest.SupersessionDates
import VirtualContext.Library.BudgetedChoice
import VirtualContext.Library.Calendar
import VirtualContext.Library.DistinctFill
import VirtualContext.Library.Flatten
import VirtualContext.Library.Framing
import VirtualContext.Library.Fuel
import VirtualContext.Library.GreedyChoice
import VirtualContext.Library.GreedyCover
import VirtualContext.Library.Layers
import VirtualContext.Library.Orphans
import VirtualContext.Library.Phrases
import VirtualContext.Library.Positions
import VirtualContext.Library.PrefixCache
import VirtualContext.Library.Regex
import VirtualContext.Library.Replacements
import VirtualContext.Library.Runs
import VirtualContext.Library.Spans
import VirtualContext.Library.Utf8
import VirtualContext.Library.Vocabulary
import VirtualContext.Library.Words
import VirtualContext.Proxy.BackupFreshness
import VirtualContext.Proxy.BudgetReductions
import VirtualContext.Proxy.BudgetRounds
import VirtualContext.Proxy.BudgetScan
import VirtualContext.Proxy.ChainCollapse
import VirtualContext.Proxy.ChatRouting
import VirtualContext.Proxy.CheckpointRoundTrip
import VirtualContext.Proxy.CheckpointSafety
import VirtualContext.Proxy.CompactionDrain
import VirtualContext.Proxy.CompactionOwnership
import VirtualContext.Proxy.CompactionRequests
import VirtualContext.Proxy.CompletedCompactions
import VirtualContext.Proxy.ContextReplacement
import VirtualContext.Proxy.Envelope
import VirtualContext.Proxy.EnvelopeLayers
import VirtualContext.Proxy.FillPassContext
import VirtualContext.Proxy.FilterGuarantees
import VirtualContext.Proxy.FilterRoles
import VirtualContext.Proxy.FilterSelection
import VirtualContext.Proxy.MarkerRoundTrip
import VirtualContext.Proxy.MarkerRouting
import VirtualContext.Proxy.PayloadTokens
import VirtualContext.Proxy.PhaseEffects
import VirtualContext.Proxy.PhaseMachine
import VirtualContext.Proxy.SseEmission
import VirtualContext.Proxy.StoreRestoration
import VirtualContext.Proxy.StreamInterception
import VirtualContext.Proxy.ToolOutputStubs
import VirtualContext.Proxy.ToolPairs
import VirtualContext.Proxy.TurnRestoration
import VirtualContext.Proxy.UpstreamTrim
import VirtualContext.Proxy.VcAttach
import VirtualContext.Storage.CleanupStops
import VirtualContext.Storage.CompactionMarks
import VirtualContext.Storage.EpochFence
import VirtualContext.Storage.GroupingAgreement
import VirtualContext.Storage.GroupingAppend
import VirtualContext.Storage.LinkedFacts
import VirtualContext.Storage.MergeRuns
import VirtualContext.Storage.MergedReferences
import VirtualContext.Storage.SummaryQueries
import VirtualContext.Storage.TakeoverUndo
import VirtualContext.Proxy.ContinuationProtocol
