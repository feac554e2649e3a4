/-
# Candidate quality

`packages/subagent/src/quality-model.ts`: what a candidate is worth, computed
from the contracts and the persisted artifacts of its tasks, and the
integration artifacts of `types.ts` that carry it. Texts are ordered by their
UTF-16 units, as the comparison of two strings does; commits are hexadecimal,
so lowering their case is lowering ASCII letters.
-/
import Mathlib.Data.List.Lex
import EasyPi.Subagent.Types

namespace EasyPi.Subagent

/-! ### Types -/

/-- `CandidateCoverageStatus`, and `CandidateReviewCoverage` without its first value. -/
inductive Coverage where
  | notApplicable | missing | partly | full
  deriving DecidableEq, Repr

/-- `CandidateGateFailure`. -/
inductive GateFailure where
  | semanticOutcome | pathAudit | validationCoverage | commitPin | reviewVerdict | reviewCoverage
  | dagIncomplete
  deriving DecidableEq, Repr

def GateFailure.text : GateFailure → String
  | semanticOutcome => "semantic_outcome"
  | pathAudit => "path_audit"
  | validationCoverage => "validation_coverage"
  | commitPin => "commit_pin"
  | reviewVerdict => "review_verdict"
  | reviewCoverage => "review_coverage"
  | dagIncomplete => "dag_incomplete"

/-- `CandidateQuality`; a verdict of no reviewer is `none`. -/
structure CandidateQuality where
  semanticOutcome : TaskOutcome
  pathAuditCoverage : Coverage
  validationCoverage : Coverage
  commitPinCoverage : Coverage
  reviewCoverage : Coverage
  reviewVerdict : Option TaskOutcome
  gatePassed : Bool
  gateFailures : List GateFailure
  writerTaskIds : List String
  pathAuditedWriterTaskIds : List String
  validatedWriterTaskIds : List String
  pinnedWriterTaskIds : List String
  reviewerTaskIds : List String
  acceptedReviewerTaskIds : List String
  fullCoverageReviewerTaskIds : List String
  requiredWriterCommits : List WriterCommitProvenance
  reviewedWriterCommits : List WriterCommitProvenance
  deriving DecidableEq, Repr

/-- `PartialCandidateOmissionReason`. -/
inductive OmissionReason where
  | taskNotSucceeded | semanticNotAccepted | pathAuditNotPassed | validationNotPassed
  | commitMissing | commitPinFailed
  deriving DecidableEq, Repr

/-- `PartialCandidateNegativeTask`. -/
structure NegativeTask where
  taskId : String
  status : TaskStatus
  terminalReason : Option TerminalReason
  semanticOutcome : Option TaskOutcome
  deriving DecidableEq, Repr

/-- Why a candidate is not complete. -/
inductive PartialReason where
  | taskFailure | candidateQualityFailure
  deriving DecidableEq, Repr

/-- `PartialCandidateProvenance`. -/
structure PartialProvenance where
  reason : PartialReason
  completeGateFailures : List GateFailure
  includedWriterTaskIds : List String
  omittedWriterTasks : List (String × OmissionReason)
  negativeTasks : List NegativeTask
  deriving DecidableEq, Repr

/-- `IntegrationArtifact`: a partial candidate has its provenance and its quality. -/
structure IntegrationArtifact where
  artifactVersion : ℕ := 1
  ref : String
  commit : String
  orderedTaskIds : List String
  orderedCommits : List String
  createdAt : ℤ
  quality : Option CandidateQuality
  provenance : Option PartialProvenance := none
  deriving DecidableEq, Repr

/-- The reason of an `IntegrationFailure`. -/
inductive IntegrationFailureReason where
  | mergeConflict | processError | cancelled | qualityGate
  deriving DecidableEq, Repr

structure IntegrationFailure where
  reason : IntegrationFailureReason
  taskId : Option String := none
  diagnostics : String
  quality : Option CandidateQuality := none
  createdAt : ℤ
  deriving DecidableEq, Repr

/-! ### Evaluation -/

def utf16 (s : String) : List ℕ :=
  s.toList.flatMap fun c =>
    if c.toNat < 65536 then [c.toNat]
    else [55296 + (c.toNat - 65536) / 1024, 56320 + (c.toNat - 65536) % 1024]

/-- `compareText(left, right) <= 0`. -/
def textLE (left right : String) : Bool := decide (utf16 left ≤ utf16 right)

/-- `provenanceKey`. The digits of a commit are ASCII, and so is the lower case here. -/
def provenanceKey (value : WriterCommitProvenance) : String :=
  value.taskId ++ "\x00" ++ value.artifactId ++ "\x00" ++ value.commit.toLower

/-- The order of `compareProvenance`. -/
def provenanceLE (left right : WriterCommitProvenance) : Bool := textLE (provenanceKey left) (provenanceKey right)

/-- A map from the keys of provenances, each key with its last value. -/
def provenanceMap (items : List WriterCommitProvenance) : OrdMap String WriterCommitProvenance :=
  items.foldl (fun unique item => unique.set (provenanceKey item) item) ∅

/-- The commit of an artifact, an empty one being none. -/
def TaskArtifact.commit? (artifact : TaskArtifact) : Option String := artifact.commit.filter (· ≠ "")

def writerCommitClosure (artifacts : List TaskArtifact) : List WriterCommitProvenance :=
  (provenanceMap (artifacts.filterMap fun artifact =>
    artifact.commit?.map fun commit => ⟨artifact.taskId, artifact.artifactId, commit⟩)).values.mergeSort
      provenanceLE

/-- `CandidateQualityTaskInput`. -/
structure QualityTask where
  contract : Contract
  artifact : TaskArtifact
  deriving DecidableEq

def coverage (required covered : List String) : Coverage :=
  let count := (required.filter (· ∈ covered)).length
  if required.length = 0 then .notApplicable
  else if count = 0 then .missing
  else if count = required.length then .full
  else .partly

def aggregateOutcome (outcomes : List (Option TaskOutcome)) : TaskOutcome :=
  if outcomes.any (· = some .rejected) then .rejected
  else if outcomes.any (· ≠ some .accepted) then .inconclusive
  else .accepted

/-- The status a review gave, and the commits it saw. -/
def TaskReviewQuality.status? : TaskReviewQuality → Option TaskOutcome
  | notApplicable => none
  | reviewed status _ => some status

def TaskReviewQuality.closure? : TaskReviewQuality → Option (List WriterCommitProvenance)
  | notApplicable => none
  | reviewed _ closure => some closure

def QualityTask.validated (item : QualityTask) : Bool :=
  item.artifact.quality.validationStatus = .passed &&
    item.artifact.validations.any fun result =>
      result.status = .passed && result.commandId ∈ item.contract.validationCommandIds

def QualityTask.acceptedReview (item : QualityTask) : Bool :=
  item.artifact.quality.semanticOutcome = .accepted &&
    item.artifact.quality.review.status? = some .accepted

def QualityTask.coversAll (required : List WriterCommitProvenance) (item : QualityTask) : Bool :=
  match item.artifact.quality.review.closure? with
  | none => false
  | some closure => required.all fun writer =>
      provenanceKey writer ∈ closure.map provenanceKey

def evaluateCandidateQuality (tasks : List QualityTask) (pinnedWriterTaskIds : List String) : CandidateQuality :=
  let ordered := tasks.mergeSort fun left right => textLE left.contract.id right.contract.id
  let writers := ordered.filter (·.contract.role = .writer)
  let reviewers := ordered.filter (·.contract.role = .reviewer)
  let ids := fun (items : List QualityTask) => items.map (·.contract.id)
  let validationRequired := writers.filter fun item => item.contract.validationCommandIds ≠ []
  let pathAudited := ids (writers.filter (·.artifact.quality.pathAudit = .passed))
  let validated := ids (validationRequired.filter (·.validated))
  let pinned := (ids writers).filter (· ∈ pinnedWriterTaskIds)
  let requiredWriterCommits := writerCommitClosure (writers.map (·.artifact))
  let accepted := reviewers.filter (·.acceptedReview)
  let evidenceBacked := accepted.filter fun item => item.artifact.evidence ≠ []
  let fullCoverage := ids (evidenceBacked.filter (·.coversAll requiredWriterCommits))
  let reviewed := provenanceMap ((evidenceBacked.flatMap fun item =>
    item.artifact.quality.review.closure?.getD []).filter fun writer =>
      provenanceKey writer ∈ requiredWriterCommits.map provenanceKey)
  let semanticOutcome := aggregateOutcome (ordered.map fun item =>
    some item.artifact.quality.semanticOutcome)
  let reviewVerdict := if reviewers.length = 0 then none
    else some (aggregateOutcome (reviewers.map (·.artifact.quality.review.status?)))
  let pathAuditCoverage := coverage (ids writers) pathAudited
  let validationCoverage := coverage (ids validationRequired) validated
  let commitPinCoverage := coverage (ids writers) pinned
  let reviewCoverage : Coverage := if reviewers.length = 0 then .missing
    else if 0 < fullCoverage.length then .full else .partly
  let gateFailures : List GateFailure :=
    (if semanticOutcome ≠ .accepted then [.semanticOutcome] else []) ++
    (if 0 < writers.length ∧ pathAuditCoverage ≠ .full then [.pathAudit] else []) ++
    (if 0 < validationRequired.length ∧ validationCoverage ≠ .full then [.validationCoverage]
      else []) ++ (if 0 < writers.length ∧ commitPinCoverage ≠ .full then [.commitPin] else []) ++
    (if 0 < reviewers.length ∧ reviewVerdict ≠ some .accepted then [.reviewVerdict] else []) ++
    (if 0 < reviewers.length ∧ reviewCoverage ≠ .full then [.reviewCoverage] else [])
  { semanticOutcome, pathAuditCoverage, validationCoverage, commitPinCoverage, reviewCoverage,
    reviewVerdict, gatePassed := gateFailures.length = 0, gateFailures, writerTaskIds := ids writers
    pathAuditedWriterTaskIds := pathAudited, validatedWriterTaskIds := validated
    pinnedWriterTaskIds := pinned, reviewerTaskIds := ids reviewers
    acceptedReviewerTaskIds := ids accepted, fullCoverageReviewerTaskIds := fullCoverage
    requiredWriterCommits, reviewedWriterCommits := reviewed.values.mergeSort provenanceLE }

def evaluatePartialCandidateQuality (tasks : List QualityTask) (pinnedWriterTaskIds : List String) : CandidateQuality :=
  let quality := evaluateCandidateQuality tasks pinnedWriterTaskIds
  { quality with
    gatePassed := false
    gateFailures := quality.gateFailures ++ if .dagIncomplete ∈ quality.gateFailures then [] else [.dagIncomplete] }

end EasyPi.Subagent
