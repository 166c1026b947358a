import AuraLauncher.Lib.While
import AuraLauncher.Lib.Machine
import AuraLauncher.Lib.Digraph
import AuraLauncher.Lib.Table
import AuraLauncher.Lib.Like
import AuraLauncher.Lib.Firsts
import AuraLauncher.Workflow.Graph
import AuraLauncher.Workflow.Json
import AuraLauncher.Workflow.Engine
import AuraLauncher.Workflow.Durable
import AuraLauncher.Workflow.Approval
import AuraLauncher.Workflow.Scheduler.Loop
import AuraLauncher.Workflow.Scheduler.Moves
import AuraLauncher.Workflow.Scheduler.Session
import AuraLauncher.Workflow.Scheduler.ExactlyOnce
import AuraLauncher.Workflow.Scheduler.Progress
import AuraLauncher.Workflow.Scheduler.Approvals
import AuraLauncher.Workflow.Scheduler.Edges
import AuraLauncher.Workflow.Scheduler.Skips
import AuraLauncher.Workflow.Scheduler.Settle
import AuraLauncher.Workflow.Scheduler.Resume
import AuraLauncher.Domain.Std
import AuraLauncher.Domain.Names
import AuraLauncher.Domain.Expr
import AuraLauncher.Domain.Action
import AuraLauncher.Domain.Workflow
import AuraLauncher.Runner.Variables
import AuraLauncher.Runner.Graph
import AuraLauncher.Runner.Step
import AuraLauncher.Runner.Advance
import AuraLauncher.Runner.Session
import AuraLauncher.Runner.Inputs
import AuraLauncher.Lib.Log
import AuraLauncher.Runner.Calls
import AuraLauncher.Runner.Confirmation
import AuraLauncher.Mcp.Invoke
import AuraLauncher.Mcp.Backend
import AuraLauncher.Runner.Transitions
import AuraLauncher.Runner.Unconfirmed
import AuraLauncher.Runner.Lockstep
import AuraLauncher.Runner.Resume
import AuraLauncher.Index.Tables
import AuraLauncher.Index.Scan
import AuraLauncher.Index.Writer
import AuraLauncher.Index.Frame
import AuraLauncher.Index.Agreement
import AuraLauncher.Index.Incremental
import AuraLauncher.Index.Coordinator
import AuraLauncher.Index.Recovery
import AuraLauncher.Index.Hints
import AuraLauncher.Index.Rewatch
import AuraLauncher.Search.Rank
import AuraLauncher.Search.Cache
import AuraLauncher.Search.Favorites
import AuraLauncher.Search.Core
import AuraLauncher.Search.Agreement
import AuraLauncher.Search.Freshness
import AuraLauncher.Search.CacheInvariant
import AuraLauncher.Search.FavoriteLocks
import AuraLauncher.Search.FanOut
import AuraLauncher.Search.FanOutMerge
import AuraLauncher.Search.Score
import AuraLauncher.Search.RankContract
import AuraLauncher.Search.Dominance
import AuraLauncher.Search.RankOrder
import AuraLauncher.Search.Identity
import AuraLauncher.Runtime.BoundedLine
import AuraLauncher.Workflow.Triggers
import AuraLauncher.Domain.Capabilities
import AuraLauncher.Plugin.Registry
import AuraLauncher.Plugin.Provider
import AuraLauncher.Plugin.Quarantine
import AuraLauncher.Plugin.Disabled
import AuraLauncher.Lib.Recognizes
import AuraLauncher.Domain.Grammar
import AuraLauncher.Agent.Plan
import AuraLauncher.Agent.Pipeline
import AuraLauncher.Agent.Session
import AuraLauncher.Agent.Approval
import AuraLauncher.Agent.Loop
import AuraLauncher.Agent.Approved
import AuraLauncher.Agent.Retries
import AuraLauncher.Agent.Agreement
import AuraLauncher.Agent.Bounded
import AuraLauncher.Agent.Replans
import AuraLauncher.Runtime.Process
import AuraLauncher.Runtime.Unread
import AuraLauncher.Mcp.Protocol
import AuraLauncher.Mcp.Sessions
import AuraLauncher.Mcp.Executor
import AuraLauncher.Mcp.Discipline
import AuraLauncher.Mcp.Calls
import AuraLauncher.Mcp.Stdio
import AuraLauncher.Mcp.Eviction
import AuraLauncher.Mcp.Resync
import AuraLauncher.Mcp.HttpPolicy
import AuraLauncher.Mcp.Auth
import AuraLauncher.Mcp.HttpStatus
import AuraLauncher.Mcp.Catalog
import AuraLauncher.Runtime.Utf8
import AuraLauncher.Lib.PercentCoding
import AuraLauncher.Domain.Splitting
import AuraLauncher.Mcp.OAuth
import AuraLauncher.Mcp.Callback
import AuraLauncher.Lib.Naming
import AuraLauncher.Mcp.Credentials
import AuraLauncher.Lib.Uri
import AuraLauncher.Lib.UriText
import AuraLauncher.Mcp.HostClass
import AuraLauncher.Mcp.Admission
import AuraLauncher.Providers.Icons
import AuraLauncher.Providers.IconBudget
import AuraLauncher.Lib.SortedMap
import AuraLauncher.Agent.ToolCatalog
import AuraLauncher.Agent.ToolRefs
import AuraLauncher.Lib.Occurrences
import AuraLauncher.Agent.Prompt
import AuraLauncher.Agent.PromptFences
import AuraLauncher.Workflow.JsonText
import AuraLauncher.Agent.PromptCatalog
import AuraLauncher.Lib.Sheet
import AuraLauncher.Providers.Catalog
import AuraLauncher.Providers.Migration
import AuraLauncher.Providers.AppIdentity
import AuraLauncher.Providers.Reconcile
import AuraLauncher.Providers.ReconcileOrder
import AuraLauncher.App.Config
import AuraLauncher.App.Settings
import AuraLauncher.App.WorkflowService
import AuraLauncher.App.AgentService
import AuraLauncher.App.ToolUiHost
import AuraLauncher.Workflow.Editor
import AuraLauncher.Runner.VariableLaws
import AuraLauncher.Runner.Substitution
import AuraLauncher.Domain.ExprDepth
import AuraLauncher.Lib.Stack
import AuraLauncher.Domain.PathSegments
import AuraLauncher.Domain.PathIdentity
import AuraLauncher.Domain.PathRoot
import AuraLauncher.Runner.RetryBound
import AuraLauncher.Runner.Vanishing
import AuraLauncher.Lib.Floats
import AuraLauncher.Lib.Decimals
import AuraLauncher.Workflow.Conditions
import AuraLauncher.Plugin.Containment
import AuraLauncher.Plugin.Matching
import AuraLauncher.Domain.System
import AuraLauncher.Domain.UiSchema
import AuraLauncher.Domain.Rich
import AuraLauncher.Search.MergeActions
import AuraLauncher.Search.WeightsConfig
import AuraLauncher.Search.UsageLead
import AuraLauncher.Search.CacheRecency
import AuraLauncher.Search.QueryNormal
import AuraLauncher.Lib.OrderBy
import AuraLauncher.Search.FavoriteOrder
import AuraLauncher.Search.FavoriteSnapshot
import AuraLauncher.Lib.Civil
import AuraLauncher.Search.PinOrder
import AuraLauncher.Search.ModifiedText
import AuraLauncher.Plugin.Store
import AuraLauncher.Plugin.Revision
import AuraLauncher.Plugin.Backup
import AuraLauncher.Mcp.Revocation
import AuraLauncher.Runtime.Manager
import AuraLauncher.Index.Subtree
import AuraLauncher.Lib.Operators
import AuraLauncher.Providers.Answers
import AuraLauncher.Providers.AnswerGrammar
import AuraLauncher.Providers.AnswerSpaces
import AuraLauncher.Index.DisplayPath
import AuraLauncher.Index.WatcherCount
import AuraLauncher.Lib.MinimalCover
import AuraLauncher.Index.DirtyRoots
import AuraLauncher.Runtime.CrashBudget
import AuraLauncher.Agent.Accounting
import AuraLauncher.Agent.ApprovalRuns
import AuraLauncher.Ui.StateMachine
import AuraLauncher.Providers.RecentFiles
import AuraLauncher.App.SettingsCommands
import AuraLauncher.Agent.Planner
import AuraLauncher.Lib.MergeBy
import AuraLauncher.Providers.AppMerge
import AuraLauncher.Lib.Passes
import AuraLauncher.Plugin.ExpandEnv
import AuraLauncher.Lib.PostOrder
import AuraLauncher.Package.Resolver
import AuraLauncher.Package.Transaction
import AuraLauncher.Lib.Blocks
import AuraLauncher.Package.Integrity
import AuraLauncher.Package.Repository
import AuraLauncher.Agent.Memory
import AuraLauncher.Index.Queries
import AuraLauncher.Search.History
import AuraLauncher.App.SystemEffects
