import AfyxGraph.Core.Transition
import AfyxGraph.Core.Obligation
import AfyxGraph.Sync.PendingChangeSet
import AfyxGraph.Sync.Scheduling
import AfyxGraph.Sync.Watcher
import AfyxGraph.Sync.Observed
import AfyxGraph.Sync.FullScan
import AfyxGraph.Sync.PendingEdits
import AfyxGraph.Extraction.Types
import AfyxGraph.Bulk.Tally
import AfyxGraph.Bulk.Dispatch
import AfyxGraph.Bulk.Effect
import AfyxGraph.Bulk.Invariant
import AfyxGraph.Bulk.Termination
import AfyxGraph.Bulk.Order
import AfyxGraph.Bulk.Accounting
import AfyxGraph.Bulk.Retry
import AfyxGraph.Core.Keyed
import AfyxGraph.Store.Tables
import AfyxGraph.Admission.Admit
import AfyxGraph.Admission.Loading
import AfyxGraph.Admission.Reattach
import AfyxGraph.Admission.Interruption
import AfyxGraph.Core.PathText
import AfyxGraph.Scope.Pattern
import AfyxGraph.Scope.Matcher
import AfyxGraph.Scope.ScopeIgnore
import AfyxGraph.Scope.Ancestors
import AfyxGraph.Core.Descent
import AfyxGraph.Core.Loop
import AfyxGraph.Graph.Reader
import AfyxGraph.Graph.Relations
import AfyxGraph.Graph.Impact
import AfyxGraph.Db.WalValve
import AfyxGraph.Core.WorkTree
import AfyxGraph.Freshness.Sidecar
import AfyxGraph.Core.Places
import AfyxGraph.Extraction.ParsePool
import AfyxGraph.Extraction.Bookkeeping
import AfyxGraph.Mcp.Daemon
import AfyxGraph.Mcp.ClientCount
import AfyxGraph.Mcp.Proxy
import AfyxGraph.Mcp.ProxyAnswers
import AfyxGraph.Mcp.LifeCycle
import AfyxGraph.Runtime.JsoncEdit
import AfyxGraph.Runtime.JsoncRemove
import AfyxGraph.Resolution.Equivalence
import AfyxGraph.UiServer.Revisions
import AfyxGraph.UiServer.Boundary
import AfyxGraph.Kernel.RoundTrip
import AfyxGraph.Graph.DeadCodeLedger
import AfyxGraph.Ui.SavedRun
import AfyxGraph.Runtime.JsonText
import AfyxGraph.Extraction.Reconciliation
import AfyxGraph.Db.FileLock
import AfyxGraph.Mcp.WriterLock
import AfyxGraph.Db.NodeCache
import AfyxGraph.Db.NameVocabulary
import AfyxGraph.Db.FullTextIndex
import AfyxGraph.Mcp.ExploreDedup
import AfyxGraph.Mcp.QueryBookkeeping
import AfyxGraph.Db.NearSpellings
import AfyxGraph.Core.LastRule
import AfyxGraph.Scope.Fits
import AfyxGraph.Scope.Gitignore
import AfyxGraph.UiServer.SavedTrails
import AfyxGraph.Graph.Route
import AfyxGraph.Graph.FileDependents
import AfyxGraph.Graph.DependencyCycles
import AfyxGraph.Graph.BreadthFirst
import AfyxGraph.Graph.DepthFirst
import AfyxGraph.Graph.TypeHierarchy
import AfyxGraph.Graph.HierarchyLayer
import AfyxGraph.Graph.HierarchyWalk
import AfyxGraph.Graph.HierarchyHidden
import AfyxGraph.Graph.OverrideEvidence
import AfyxGraph.Graph.NearestCalls
import AfyxGraph.Graph.DirectedFlow
import AfyxGraph.Graph.DirectedSides
import AfyxGraph.Graph.DirectedSearch
import AfyxGraph.Sync.RetryStreaks
import AfyxGraph.Sync.Mutex
import AfyxGraph.Core.Spans
import AfyxGraph.UiServer.SourceOrder
import AfyxGraph.Runtime.Nesting
import AfyxGraph.Graph.GuardLabels
import AfyxGraph.Ui.Conditions
import AfyxGraph.Core.Lexing
import AfyxGraph.Resolution.StripComments
import AfyxGraph.Resolution.StrippedLexemes
import AfyxGraph.Resolution.BlankStrings
import AfyxGraph.Resolution.BlankedLines
import AfyxGraph.Runtime.PosixPath
import AfyxGraph.Resolution.PathAliases
import AfyxGraph.Resolution.AliasRule
import AfyxGraph.Resolution.StripJsonc
import AfyxGraph.Resolution.StrippedJson
import AfyxGraph.Resolution.JsoncReaders
import AfyxGraph.Resolution.MethodMatches
import AfyxGraph.Installer.MarkedSection
import AfyxGraph.Ui.TrailState
import AfyxGraph.Ui.StepRows
import AfyxGraph.Ui.EntryLayering
import AfyxGraph.Ui.MapLayering
import AfyxGraph.Core.Components
import AfyxGraph.Ui.ModuleCycles
import AfyxGraph.Ui.FlowLayout
import AfyxGraph.Core.KeyedLinks
import AfyxGraph.Ui.OrderGraph
import AfyxGraph.Graph.NamedSearch
import AfyxGraph.Kernel.TextUtil
import AfyxGraph.Mcp.ClientHello
import AfyxGraph.Core.Delimited
import AfyxGraph.Mcp.SocketLifecycle
import AfyxGraph.Db.WalBackfill
import AfyxGraph.Context.Budgets
import AfyxGraph.Search.QueryPaths
import AfyxGraph.Core.Listing
import AfyxGraph.Scope.IncludeRoots
import AfyxGraph.Bulk.StoreDrains
import AfyxGraph.UiServer.ProgramReading
import AfyxGraph.Sync.FsWatchRest
import AfyxGraph.Installer.TomlTables
