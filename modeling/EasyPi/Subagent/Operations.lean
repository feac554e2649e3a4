/-
# Sequences of ledger operations

The operations of `RunLedger` as data, and what a sequence of them does to an
empty ledger. Every controller and every session talks to one database and each
call is one transaction, so an interleaving of any number of controllers is a
sequence of operations. A call that throws is rolled back.
-/
import EasyPi.Subagent.Integration

namespace EasyPi.Subagent

/-! ### Operations -/

/-- A call. `freshIds` are the random attempt ids a claim draws. -/
inductive Op where
  | createDagRun (runId : String) (request : Request) (usage : Usage)
  | expandDagRun (runId : String) (expectedGraphVersion : ℕ) (expanded : Request) (now : ℤ) (lease : Option DagRunLease)
  | acquireDagRunLease (runId ownerId : String) (now leaseDurationMs : ℤ)
  | heartbeatDagRunLease (runId : String) (lease : DagRunLease) (now leaseDurationMs : ℤ)
  | releaseDagRunLease (runId : String) (lease : DagRunLease) (now : ℤ)
  | markDagRunPaused (runId : String) (now : ℤ)
  | clearDagRunPause (runId : String) (now : ℤ) (lease : DagRunLease)
  | setDagRunStatus (runId : String) (nextStatus : RunStatus) (now : ℤ) (lease : Option DagRunLease)
  | setDagRunUsage (runId : String) (usage : Usage) (now : ℤ) (lease : Option DagRunLease) (turns : ℕ)
  | reconcileDagRunAccounting (runId : String) (now : ℤ) (lease : Option DagRunLease)
  | claimRunnableTasks (runId ownerId : String) (now leaseDurationMs limit : ℤ)
      (lease : Option DagRunLease) (freshIds : ℕ → String)
  | heartbeatAttempt (runId taskId attemptId ownerId : String) (now leaseDurationMs : ℤ) (lease : Option DagRunLease)
  | checkpointAttempt (runId taskId attemptId ownerId : String) (checkpoint : JsonValue) (now : ℤ)
      (lease : Option DagRunLease)
  | openDagProviderCircuit (runId taskId attemptId ownerId : String) (signal : CircuitSignal)
      (usage : Usage) (turns : ℕ) (retryNotBefore now : ℤ) (lease : Option DagRunLease)
  | recordDagAttemptAccounting (runId taskId attemptId ownerId : String) (usage : Usage)
      (turns : ℕ) (now : ℤ) (lease : Option DagRunLease)
  | completeDagTask (runId taskId attemptId ownerId : String) (completion : Completion) (now : ℤ)
      (lease : Option DagRunLease)
  | recoverDagRun (runId : String) (now : ℤ) (lease : Option DagRunLease)
  | recordDagIntegration (runId : String) (integration : IntegrationArtifact) (now : ℤ) (lease : Option DagRunLease)
  | recordDagIntegrationFailure (runId : String) (failure : IntegrationFailure) (now : ℤ) (lease : Option DagRunLease)

namespace Op

def runId : Op → String
  | createDagRun runId .. | expandDagRun runId .. | acquireDagRunLease runId ..
  | heartbeatDagRunLease runId .. | releaseDagRunLease runId .. | markDagRunPaused runId ..
  | clearDagRunPause runId .. | setDagRunStatus runId .. | setDagRunUsage runId ..
  | reconcileDagRunAccounting runId .. | claimRunnableTasks runId .. | heartbeatAttempt runId ..
  | checkpointAttempt runId .. | openDagProviderCircuit runId ..
  | recordDagAttemptAccounting runId .. | completeDagTask runId .. | recoverDagRun runId ..
  | recordDagIntegration runId .. | recordDagIntegrationFailure runId .. => runId

def lease? : Op → Option DagRunLease
  | createDagRun .. | acquireDagRunLease .. | markDagRunPaused .. => none
  | heartbeatDagRunLease _ lease _ _ | releaseDagRunLease _ lease _
  | clearDagRunPause _ _ lease => some lease
  | expandDagRun _ _ _ _ lease | setDagRunStatus _ _ _ lease | setDagRunUsage _ _ _ lease _
  | reconcileDagRunAccounting _ _ lease | claimRunnableTasks _ _ _ _ _ lease _
  | heartbeatAttempt _ _ _ _ _ _ lease | checkpointAttempt _ _ _ _ _ _ lease
  | openDagProviderCircuit _ _ _ _ _ _ _ _ _ lease
  | recordDagAttemptAccounting _ _ _ _ _ _ _ lease | completeDagTask _ _ _ _ _ _ lease
  | recoverDagRun _ _ lease | recordDagIntegration _ _ _ lease
  | recordDagIntegrationFailure _ _ _ lease => lease

/-- The ledger after a call, without what the call returns. -/
def exec (P : RetryPolicy) (ledger : Ledger) : Op → Except String Ledger
  | createDagRun runId request usage =>
    (Subagent.createDagRun runId request usage ledger).map (·.2)
  | expandDagRun runId version expanded now lease =>
    (Subagent.expandDagRun runId version expanded now lease ledger).map (·.2)
  | acquireDagRunLease runId ownerId now duration =>
    (Subagent.acquireDagRunLease runId ownerId now duration ledger).map (·.2)
  | heartbeatDagRunLease runId lease now duration =>
    (Subagent.heartbeatDagRunLease runId lease now duration ledger).map (·.2)
  | releaseDagRunLease runId lease now =>
    (Subagent.releaseDagRunLease runId lease now ledger).map (·.2)
  | markDagRunPaused runId now => (Subagent.markDagRunPaused runId now ledger).map (·.2)
  | clearDagRunPause runId now lease =>
    (Subagent.clearDagRunPause runId now lease ledger).map (·.2)
  | setDagRunStatus runId nextStatus now lease =>
    (Subagent.setDagRunStatus runId nextStatus now lease ledger).map (·.2)
  | setDagRunUsage runId usage now lease turns =>
    (Subagent.setDagRunUsage runId usage now lease turns ledger).map (·.2)
  | reconcileDagRunAccounting runId now lease =>
    (Subagent.reconcileDagRunAccounting runId now lease ledger).map (·.2)
  | claimRunnableTasks runId ownerId now duration limit lease freshIds =>
    (Subagent.claimRunnableTasks runId ownerId now duration limit lease freshIds ledger).map (·.2)
  | heartbeatAttempt runId taskId attemptId ownerId now duration lease =>
    (Subagent.heartbeatAttempt runId taskId attemptId ownerId now duration lease ledger).map (·.2)
  | checkpointAttempt runId taskId attemptId ownerId checkpoint now lease =>
    (Subagent.checkpointAttempt runId taskId attemptId ownerId checkpoint now lease ledger).map (·.2)
  | openDagProviderCircuit runId taskId attemptId ownerId signal usage turns retryNotBefore now
      lease =>
    (Subagent.openDagProviderCircuit runId taskId attemptId ownerId signal usage turns retryNotBefore
      now lease ledger).map (·.2)
  | recordDagAttemptAccounting runId taskId attemptId ownerId usage turns now lease =>
    (Subagent.recordDagAttemptAccounting runId taskId attemptId ownerId usage turns now lease
      ledger).map (·.2)
  | completeDagTask runId taskId attemptId ownerId completion now lease =>
    (Subagent.completeDagTask P runId taskId attemptId ownerId completion now lease ledger).map (·.2)
  | recoverDagRun runId now lease => (Subagent.recoverDagRun P runId now lease ledger).map (·.2)
  | recordDagIntegration runId integration now lease =>
    (Subagent.recordDagIntegration runId integration now lease ledger).map (·.2)
  | recordDagIntegrationFailure runId failure now lease =>
    (Subagent.recordDagIntegrationFailure runId failure now lease ledger).map (·.2)

end Op

variable (P : RetryPolicy) (ledger : Ledger)

/-- One call: a transaction that throws is rolled back. -/
def step (op : Op) : Ledger :=
  match op.exec P ledger with
  | .ok ledger => ledger
  | .error _ => ledger

def steps (ops : List Op) : Ledger := ops.foldl (step P) ledger

/-- A ledger some sequence of calls leads to. -/
def Reachable : Prop := ∃ ops, ledger = steps P {} ops

end EasyPi.Subagent
