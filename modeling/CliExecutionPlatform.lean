import CliExecutionPlatform.Process
import CliExecutionPlatform.Interleaving
import CliExecutionPlatform.FileTree
import CliExecutionPlatform.PosixPath
import CliExecutionPlatform.Models
import CliExecutionPlatform.Database
import CliExecutionPlatform.Disk
import CliExecutionPlatform.LocalStorage
import CliExecutionPlatform.Tool
import CliExecutionPlatform.Platform
import CliExecutionPlatform.Runner
import CliExecutionPlatform.Attempt
import CliExecutionPlatform.Orchestrator
import CliExecutionPlatform.Footprint
import CliExecutionPlatform.Lifecycle
import CliExecutionPlatform.Holdings
import CliExecutionPlatform.AttemptSpec
import CliExecutionPlatform.Atomicity
import CliExecutionPlatform.Residue
import CliExecutionPlatform.JobSteps
import CliExecutionPlatform.Conduct
import CliExecutionPlatform.Outcomes
import CliExecutionPlatform.Ended
import CliExecutionPlatform.AppendLog
import CliExecutionPlatform.EventStream
import CliExecutionPlatform.StreamDelivery
import CliExecutionPlatform.StreamSlots
import CliExecutionPlatform.Encoder
import CliExecutionPlatform.DownloadRequests
import CliExecutionPlatform.ToolRuns
import CliExecutionPlatform.JobTrees
import CliExecutionPlatform.StatusLog
import CliExecutionPlatform.Protocol
import CliExecutionPlatform.RunResults
import CliExecutionPlatform.ToolSlots
import CliExecutionPlatform.Regex
import CliExecutionPlatform.ScadValidator
import CliExecutionPlatform.Arguments
import CliExecutionPlatform.ScadMask
import CliExecutionPlatform.PolicyAudit
import CliExecutionPlatform.Evaluation
import CliExecutionPlatform.PathPolicies
import CliExecutionPlatform.OutputCapture
import CliExecutionPlatform.Retry
import CliExecutionPlatform.JsonReader
import CliExecutionPlatform.PlanParser
import CliExecutionPlatform.PlanRoundTrip
import CliExecutionPlatform.ScadLines
import CliExecutionPlatform.ScadFeedback
import CliExecutionPlatform.Diagnostics
import CliExecutionPlatform.StreamAccess
import CliExecutionPlatform.Refinements
import CliExecutionPlatform.StaleRecovery
import CliExecutionPlatform.Semaphores
import CliExecutionPlatform.RunWalk
import CliExecutionPlatform.Progress
import CliExecutionPlatform.Mediation
import CliExecutionPlatform.Supervision
import CliExecutionPlatform.TaskStore
import CliExecutionPlatform.JobStore
import CliExecutionPlatform.LlmClient
import CliExecutionPlatform.StreamViewer
import CliExecutionPlatform.Journal
import CliExecutionPlatform.Briefing
import CliExecutionPlatform.StreamEnds
import CliExecutionPlatform.JsonLoads
import CliExecutionPlatform.JsonValues
