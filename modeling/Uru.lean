import Uru.Indexing.HashStoreCrash
import Uru.Indexing.ResumeEquivalence
import Uru.Indexing.Convergence
import Uru.Plugin.Reindex
import Uru.Plugin.Uninstall
import Uru.Sidecar.Lifecycle
import Uru.Sidecar.ExitChecks
import Uru.Sidecar.Takeover
import Uru.Runtime.Absorbing
import Uru.Plugin.Exclusivity
import Uru.Filter.Raising
import Uru.Filter.Cypher
import Uru.Filter.CanonicalHash
import Uru.Filter.DocumentKeys
import Uru.Ingest.StagedOnce
import Uru.Storage.ForgetCascade
import Uru.Storage.SharedConnection
import Uru.Storage.VectorConvergence
import Uru.Dream.MirrorExact
import Uru.Dream.PruneResume
import Uru.Dream.MirrorQueued
import Uru.Ingest.ReplaceExact
import Uru.Ingest.ProcessedOnce
import Uru.Dream.LockExact
import Uru.Dream.Checkpoint
import Uru.Dream.RunStateExact
import Uru.Hooks.Isolation
import Uru.Query.Fresh
import Uru.Sidecar.ChatContext
import Uru.Sidecar.StreamingProxy
import Uru.Indexing.DebounceTimers
import Uru.Indexing.Glob
import Uru.Indexing.Frontmatter
import Uru.Plugin.RegistryLaws
import Uru.Filter.Algebra
import Uru.Storage.TimestampText
import Uru.Storage.FilteredSearch
import Uru.Storage.SessionSweep
import Uru.Chunking.Fixed
import Uru.Chunking.ConversationGroups
import Uru.Storage.UpsertExact
import Uru.Bootstrap.BrokenInstall
import Uru.Dream.DedupePlanExact
import Uru.Storage.ChronicleWindow
import Uru.Extraction.BoundedClosure
import Uru.Dream.ContradictionReconcile
import Uru.Query.TemporalFilter
import Uru.Dream.FactCompaction
import Uru.Lib.Modularity
import Uru.Hooks.MatchMeaning
import Uru.Dream.NormalizeSchema
import Uru.Accel.Communities
import Uru.Query.RankFusionExact
import Uru.Accel.NearDuplicates
import Uru.Query.EntitySearch
import Uru.Skeleton.TimeHierarchy
import Uru.Skeleton.TemporalEdges
import Uru.Storage.GraphTraversal
import Uru.Sidecar.ChatView
import Uru.Dream.EventClustering
import Uru.Dream.DedupeSurreal
import Uru.Query.ExplicitWindow
import Uru.Query.SourceOrder
import Uru.Accel.PageRank
import Uru.Lib.Damped
import Uru.Query.PprRetrieval
import Uru.Lib.Greedy
import Uru.Accel.Mmr
import Uru.Query.Diversity
import Uru.Query.KeywordParity
import Uru.Integrations.LanggraphRefines
import Uru.Extraction.Unification
