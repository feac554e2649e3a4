import EasyPi.Agent.Scheduler
import EasyPi.CodingAgent.MutationQueue
import EasyPi.CodingAgent.RecoveryStorage
import EasyPi.Jsonl.Recovery
import EasyPi.Protocol.Codec
import EasyPi.Sqlite.Agreement
import EasyPi.Sqlite.WriterLease
import EasyPi.Subagent.RunLease
import EasyPi.Subagent.Claimable
import EasyPi.Subagent.Accounting
import EasyPi.Subagent.CandidateAgreement
import EasyPi.Tui.FocusRuns
import EasyPi.Mcp.SseResume
import EasyPi.Mcp.ClientRuns
import EasyPi.Server.SnapshotRuns
import EasyPi.Server.SessionRuns
import EasyPi.Client.LeaseRuns
import EasyPi.Tui.MainScreenRuns
import EasyPi.Agent.ToolOrder
import EasyPi.CodingAgent.TaskLock
import EasyPi.Codemode.ExecutionRuns
import EasyPi.CodingAgent.TaskRecoveryQueueRuns
import EasyPi.CodingAgent.ReadTool
import EasyPi.CodingAgent.OutputLog
import EasyPi.Session.Fork
import EasyPi.Agent.ResumeTools
import EasyPi.Agent.NoProgress
import EasyPi.CodingAgent.EditExact
import EasyPi.CodingAgent.DiffLines
import EasyPi.Subagent.StableOrder
import EasyPi.CodingAgent.SessionMigrationTree
import EasyPi.CodingAgent.CompactionContext
import EasyPi.Subagent.DependencyBounds
import EasyPi.Subagent.HistoryPages
import EasyPi.Subagent.Ownership
import EasyPi.Permissions.ShellQuoting
import EasyPi.Tui.StdinAccount
import EasyPi.Tui.StdinTokens
import EasyPi.Tui.Layout
import EasyPi.Tui.EditorUndo
import EasyPi.Tui.EditorKills
import EasyPi.Tui.TruncateExact
import EasyPi.Mcp.Stdio
import EasyPi.Tui.ControlSequences
import EasyPi.Ai.GrammarInput
import EasyPi.Mcp.SseCalls
import EasyPi.Ai.JsonRepair
import EasyPi.CodingAgent.LocalCompaction
import EasyPi.Tui.Stack
