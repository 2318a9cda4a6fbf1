import IronClaw.Agent.AgenticLoop
import IronClaw.Agent.Checkpoints
import IronClaw.Agent.Clearance
import IronClaw.Agent.CostGuard
import IronClaw.Agent.Ownership
import IronClaw.Agent.Queueing
import IronClaw.Agent.Secrecy
import IronClaw.Agent.Transparency
import IronClaw.Bridge.Approvals
import IronClaw.Bridge.CallLimit
import IronClaw.Bridge.Disabled
import IronClaw.Bridge.Sanitized
import IronClaw.Engine.BatchResults
import IronClaw.Engine.GrantFormat
import IronClaw.Engine.Provenance
import IronClaw.Engine.Vetting
import IronClaw.Files.ApplyPatch
import IronClaw.Files.Undo
import IronClaw.Gate.ExactlyOnce
import IronClaw.Gate.Index
import IronClaw.Gate.Resolution
import IronClaw.Jobs.Admission
import IronClaw.Jobs.FollowUps
import IronClaw.Jobs.Patience
import IronClaw.Llm.FailoverRuns
import IronClaw.Llm.ResponseCache
import IronClaw.Llm.Retry
import IronClaw.Llm.ToolMessages
import IronClaw.Memory.ChunkRuns
import IronClaw.Memory.EmbeddingCache
import IronClaw.Memory.ProfileSection
import IronClaw.Memory.ProtectedPaths
import IronClaw.Memory.Search
import IronClaw.Memory.SearchIndex
import IronClaw.Memory.Staleness
import IronClaw.Memory.SystemPrompt
import IronClaw.Missions.Aliases
import IronClaw.Missions.FireRate
import IronClaw.Missions.Focus
import IronClaw.Missions.Guardrails
import IronClaw.Missions.Pause
import IronClaw.Orchestrator.Rollback
import IronClaw.Pairing.Unpairing
import IronClaw.Routines.Accounting
import IronClaw.Routines.EventCache
import IronClaw.Routines.Guardrails
import IronClaw.Routines.Owners
import IronClaw.Runtime.Delivery
import IronClaw.Runtime.Prompt
import IronClaw.Runtime.Transcript
import IronClaw.Runtime.Tree
import IronClaw.Safety.Boundary
import IronClaw.Safety.Detection
import IronClaw.Safety.Redaction
import IronClaw.Sandbox.Confinement
import IronClaw.Sandbox.ProjectPaths
import IronClaw.Secrets.Credentials
import IronClaw.Sessions.Approvals
import IronClaw.Sessions.Resolution
import IronClaw.Settings.Agreement
import IronClaw.Skills.Interleaving
import IronClaw.Skills.Migration
import IronClaw.Skills.Selector
import IronClaw.Store.EnginePaths
import IronClaw.Store.Eviction
import IronClaw.Tools.Allowlist
import IronClaw.Tools.RateLimits
import IronClaw.Workspace.Mounts
