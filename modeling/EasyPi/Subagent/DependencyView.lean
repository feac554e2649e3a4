/-
# What a task is shown of its dependencies

`projectDependencyArtifacts` (`packages/subagent/src/dependency-projector.ts`): the artifacts that a task
depends on are cut down to a view whose JSON text has at most `DEPENDENCY_VIEW_MAX_BYTES` bytes. Failed
checks and risks are admitted first, then the summaries grow, then other details are admitted one of each
dependency at a time; what is left out is counted.
-/
import EasyPi.Ai.JsonText
import EasyPi.Subagent.Gates

namespace EasyPi.Subagent
namespace Dependencies

structure HandoffEvidence where
  path : String
  lineRange : Option String := none
  claim : String
  deriving DecidableEq

/-- The status of a `HandoffVerification`. -/
inductive VerificationStatus where
  | passed | failed | notRun
  deriving DecidableEq

structure HandoffVerification where
  check : String
  status : VerificationStatus
  details : Option String := none
  deriving DecidableEq

inductive VerificationLevel where
  | unverified | selfReported | controllerVerified
  deriving DecidableEq

structure Handoff where
  summary : String
  verificationLevel : VerificationLevel := .unverified
  evidence : List HandoffEvidence := []
  verification : List HandoffVerification := []
  risks : List String := []
  deriving DecidableEq

/-- A `ValidationResult` with its exit code. -/
structure Validation extends ValidationResult where
  exitCode : Option ℤ := none
  deriving DecidableEq

/-- A `TaskArtifact`, as far as it is projected. -/
structure Artifact where
  taskId : String
  artifactId : String
  handoff : Handoff
  changedPaths : List String := []
  externalChangedPaths : Option (List String) := none
  validations : List Validation := []
  quality : TaskQuality
  commit : Option String := none
  deriving DecidableEq

/-! ### Views -/

/-- `DependencyEvidenceView`. -/
structure EvidenceView where
  path : String
  lineRange : Option String
  claim : String
  deriving DecidableEq

/-- `ControllerValidationView`. -/
structure ValidationView where
  commandId : String
  status : ValidationStatus
  exitCode : Option ℤ
  deriving DecidableEq

structure ChildVerificationView where
  check : String
  status : VerificationStatus
  details : Option String
  deriving DecidableEq

/-- `DependencyRiskView`. -/
structure RiskView where
  text : String
  deriving DecidableEq

/-- `DependencyQualityView`; a review that is not applicable has no outcome. -/
structure QualityView where
  semanticOutcome : TaskOutcome
  pathAudit : QualityCheckStatus
  validation : QualityCheckStatus
  review : Option TaskOutcome
  deriving DecidableEq

/-- `DependencyOmittedView`. -/
structure OmittedView where
  summaryBytes : ℤ := 0
  evidence : ℤ := 0
  evidenceBytes : ℤ := 0
  changedPaths : ℤ := 0
  changedPathBytes : ℤ := 0
  controllerValidations : ℤ := 0
  childVerifications : ℤ := 0
  childVerificationBytes : ℤ := 0
  risks : ℤ := 0
  riskBytes : ℤ := 0
  deriving DecidableEq

/-- `DependencyArtifactView`. -/
structure ArtifactView where
  taskId : String
  artifactId : String
  summary : String
  quality : QualityView
  verificationLevel : VerificationLevel
  evidence : List EvidenceView := []
  changedPaths : List String := []
  commit : Option String
  controllerValidations : List ValidationView := []
  childVerifications : List ChildVerificationView := []
  risks : List RiskView := []
  omitted : OmittedView
  deriving DecidableEq

/-- `DependencyView`; its version and its byte limit are constants. -/
structure DependencyView where
  dependencies : List ArtifactView
  omittedTotals : OmittedView
  truncated : Bool
  deriving DecidableEq

/-- `DEPENDENCY_VIEW_MAX_BYTES`. -/
def dependencyViewMaxBytes : ℕ := 24 * 1024
/-- `SUMMARY_MAX_BYTES`. -/
def summaryMaxBytes : ℕ := 1024
/-- `MIN_SUMMARY_BYTES`. -/
def minSummaryBytes : ℕ := 4
/-- `EVIDENCE_PATH_MAX_BYTES`. -/
def evidencePathMaxBytes : ℕ := 240
/-- `EVIDENCE_LINE_RANGE_MAX_BYTES`. -/
def evidenceLineRangeMaxBytes : ℕ := 80
/-- `EVIDENCE_CLAIM_MAX_BYTES`. -/
def evidenceClaimMaxBytes : ℕ := 360
/-- `CHANGED_PATH_MAX_BYTES`. -/
def changedPathMaxBytes : ℕ := 320
/-- `CHILD_VERIFICATION_CHECK_MAX_BYTES`. -/
def childVerificationCheckMaxBytes : ℕ := 240
/-- `CHILD_VERIFICATION_DETAILS_MAX_BYTES`. -/
def childVerificationDetailsMaxBytes : ℕ := 480
/-- `RISK_MAX_BYTES`. -/
def riskMaxBytes : ℕ := 480

structure TruncatedString where
  value : String
  omittedBytes : ℕ
  deriving DecidableEq

/-- The characters that fit into a number of bytes. -/
def retain (contentLimit : ℕ) : ℕ → List Char → List Char
  | _, [] => []
  | retainedBytes, character :: rest =>
    if contentLimit < retainedBytes + character.utf8Size then []
    else character :: retain contentLimit (retainedBytes + character.utf8Size) rest

def truncateUtf8 (value : String) (maxBytes : ℕ) : TruncatedString :=
  let totalBytes := value.utf8ByteSize
  if totalBytes ≤ maxBytes then ⟨value, 0⟩
  else
    let retained := String.ofList (retain (maxBytes - "…".utf8ByteSize) 0 value.toList)
    ⟨retained ++ "…", totalBytes - retained.utf8ByteSize⟩

/-- The truncation of a text that may be missing or empty. -/
def truncateOptional (value : Option String) (maxBytes : ℕ) : Option TruncatedString :=
  (value.filter (· ≠ "")).map (truncateUtf8 · maxBytes)

/-- The bytes left out of a text that may be missing. -/
def omittedBytesOf (text : Option TruncatedString) : ℕ := (text.map (·.omittedBytes)).getD 0

/-! ### Additions -/

/-- A detail and the bytes that were cut off it. -/
structure Candidate (α : Type) where
  value : α
  omittedBytes : ℕ
  deriving DecidableEq

variable (artifact : Artifact)

def projectQuality : QualityView where
  semanticOutcome := artifact.quality.semanticOutcome
  pathAudit := artifact.quality.pathAudit
  validation := artifact.quality.validationStatus
  review :=
    match artifact.quality.review with
    | .notApplicable => none
    | .reviewed status _ => some status

def projectEvidence (evidence : HandoffEvidence) : Candidate EvidenceView :=
  let path := truncateUtf8 evidence.path evidencePathMaxBytes
  let lineRange := truncateOptional evidence.lineRange evidenceLineRangeMaxBytes
  let claim := truncateUtf8 evidence.claim evidenceClaimMaxBytes
  ⟨⟨path.value, lineRange.map (·.value), claim.value⟩, path.omittedBytes + omittedBytesOf lineRange + claim.omittedBytes⟩

def projectChangedPath (path : String) : Candidate String :=
  let projected := truncateUtf8 path changedPathMaxBytes
  ⟨projected.value, projected.omittedBytes⟩

def projectValidation (validation : Validation) : ValidationView :=
  ⟨validation.commandId, validation.status, validation.exitCode⟩

def projectChildVerification (verification : HandoffVerification) : Candidate ChildVerificationView :=
  let check := truncateUtf8 verification.check childVerificationCheckMaxBytes
  let details := truncateOptional verification.details childVerificationDetailsMaxBytes
  ⟨⟨check.value, verification.status, details.map (·.value)⟩, check.omittedBytes + omittedBytesOf details⟩

def projectRisk (risk : String) : Candidate RiskView :=
  let text := truncateUtf8 risk riskMaxBytes
  ⟨⟨text.value⟩, text.omittedBytes⟩

inductive OptionalAddition where
  | evidence (candidate : Candidate EvidenceView)
  | changedPath (candidate : Candidate String)
  | validation (candidate : ValidationView)
  | childVerification (candidate : Candidate ChildVerificationView)
  | risk (candidate : Candidate RiskView)
  deriving DecidableEq

def changedPaths (artifact : Artifact) : List String := artifact.changedPaths ++ artifact.externalChangedPaths.getD []

def criticalAdditionsFor : List OptionalAddition :=
  ((artifact.handoff.verification.map projectChildVerification).filter (·.value.status ≠ .passed)).map
      .childVerification ++ (artifact.handoff.risks.map projectRisk).map .risk

def additionsFor : List OptionalAddition :=
  let evidence := artifact.handoff.evidence.map projectEvidence
  let paths := (changedPaths artifact).map projectChangedPath
  let validations := artifact.validations.map projectValidation
  let passedChildVerifications :=
    (artifact.handoff.verification.map projectChildVerification).filter (·.value.status = .passed)
  let rounds := max (max evidence.length paths.length) (max validations.length passedChildVerifications.length)
  (List.range rounds).flatMap fun index =>
    (evidence[index]?.map .evidence).toList ++ (paths[index]?.map .changedPath).toList ++
      (validations[index]?.map .validation).toList ++ (passedChildVerifications[index]?.map .childVerification).toList

def OmittedView.add (total omitted : OmittedView) : OmittedView where
  summaryBytes := total.summaryBytes + omitted.summaryBytes
  evidence := total.evidence + omitted.evidence
  evidenceBytes := total.evidenceBytes + omitted.evidenceBytes
  changedPaths := total.changedPaths + omitted.changedPaths
  changedPathBytes := total.changedPathBytes + omitted.changedPathBytes
  controllerValidations := total.controllerValidations + omitted.controllerValidations
  childVerifications := total.childVerifications + omitted.childVerifications
  childVerificationBytes := total.childVerificationBytes + omitted.childVerificationBytes
  risks := total.risks + omitted.risks
  riskBytes := total.riskBytes + omitted.riskBytes

def OmittedView.counters : List (OmittedView → ℤ) :=
  [(·.summaryBytes), (·.evidence), (·.evidenceBytes), (·.changedPaths), (·.changedPathBytes),
    (·.controllerValidations), (·.childVerifications), (·.childVerificationBytes), (·.risks), (·.riskBytes)]

/-- `Object.values(omitted).some((value) => value > 0)`. -/
def OmittedView.anyPositive (omitted : OmittedView) : Bool := counters.any fun counter => 0 < counter omitted

def omittedTotals (dependencies : List ArtifactView) : OmittedView :=
  dependencies.foldl (fun total dependency => total.add dependency.omitted) {}

def finalized (dependencies : List ArtifactView) : DependencyView :=
  ⟨dependencies, omittedTotals dependencies, (omittedTotals dependencies).anyPositive⟩

def initialArtifactView (summaryMaxBytes : ℕ) (artifact : Artifact) : ArtifactView :=
  let summary := truncateUtf8 artifact.handoff.summary summaryMaxBytes
  { taskId := artifact.taskId
    artifactId := artifact.artifactId
    summary := summary.value
    quality := projectQuality artifact
    verificationLevel := artifact.handoff.verificationLevel
    commit := artifact.commit
    omitted := {
      summaryBytes := summary.omittedBytes
      evidence := artifact.handoff.evidence.length
      changedPaths := (changedPaths artifact).length
      controllerValidations := artifact.validations.length
      childVerifications := artifact.handoff.verification.length
      risks := artifact.handoff.risks.length } }

def initialView (artifacts : List Artifact) (summaryMaxBytes : ℕ) : DependencyView :=
  finalized (artifacts.map (initialArtifactView summaryMaxBytes))

/-! ### JSON text -/

/-- A field that is left out if it is missing. -/
def optionalField (name : String) (value : Option JsonValue) : Fields := (value.map (name, ·)).toList

def outcomeText : TaskOutcome → String
  | .accepted => "accepted"
  | .rejected => "rejected"
  | .inconclusive => "inconclusive"

def checkStatusText : QualityCheckStatus → String
  | .passed => "passed"
  | .failed => "failed"
  | .notRun => "not_run"
  | .notApplicable => "not_applicable"

def verificationLevelText : VerificationLevel → String
  | .unverified => "unverified"
  | .selfReported => "self_reported"
  | .controllerVerified => "controller_verified"

def validationStatusText : ValidationStatus → String
  | .passed => "passed"
  | .failed => "failed"
  | .timeout => "timeout"
  | .cancelled => "cancelled"

def verificationStatusText : VerificationStatus → String
  | .passed => "passed"
  | .failed => "failed"
  | .notRun => "not-run"

def QualityView.toJson (view : QualityView) : JsonValue :=
  .obj [("semanticOutcome", .str (outcomeText view.semanticOutcome)),
    ("pathAudit", .str (checkStatusText view.pathAudit)), ("validation", .str (checkStatusText view.validation)),
    ("review", .str ((view.review.map outcomeText).getD "not_applicable"))]

def EvidenceView.toJson (view : EvidenceView) : JsonValue :=
  .obj ([("path", .str view.path)] ++ optionalField "lineRange" (view.lineRange.map .str) ++ [("claim", .str view.claim)])

def ValidationView.toJson (view : ValidationView) : JsonValue :=
  .obj ([("commandId", .str view.commandId), ("status", .str (validationStatusText view.status))] ++
    optionalField "exitCode" (view.exitCode.map (.num ·)) ++ [("trust", .str "controller_verified")])

def ChildVerificationView.toJson (view : ChildVerificationView) : JsonValue :=
  .obj ([("check", .str view.check), ("status", .str (verificationStatusText view.status))] ++
    optionalField "details" (view.details.map .str) ++ [("trust", .str "self_reported")])

def RiskView.toJson (view : RiskView) : JsonValue := .obj [("text", .str view.text), ("trust", .str "self_reported")]

def OmittedView.toJson (view : OmittedView) : JsonValue :=
  .obj [("summaryBytes", .num view.summaryBytes), ("evidence", .num view.evidence),
    ("evidenceBytes", .num view.evidenceBytes), ("changedPaths", .num view.changedPaths),
    ("changedPathBytes", .num view.changedPathBytes), ("controllerValidations", .num view.controllerValidations),
    ("childVerifications", .num view.childVerifications),
    ("childVerificationBytes", .num view.childVerificationBytes), ("risks", .num view.risks),
    ("riskBytes", .num view.riskBytes)]

def ArtifactView.toJson (view : ArtifactView) : JsonValue :=
  .obj ([("taskId", .str view.taskId), ("artifactId", .str view.artifactId), ("summary", .str view.summary),
      ("quality", view.quality.toJson), ("verificationLevel", .str (verificationLevelText view.verificationLevel)),
      ("evidence", .arr (view.evidence.map (·.toJson))), ("changedPaths", .arr (view.changedPaths.map .str))] ++
    optionalField "commit" (view.commit.map .str) ++
    [("controllerValidations", .arr (view.controllerValidations.map (·.toJson))),
      ("childVerifications", .arr (view.childVerifications.map (·.toJson))),
      ("risks", .arr (view.risks.map (·.toJson))), ("omitted", view.omitted.toJson)])

def DependencyView.toJson (view : DependencyView) : JsonValue :=
  .obj [("version", .num 2), ("maxBytes", .num dependencyViewMaxBytes),
    ("dependencies", .arr (view.dependencies.map (·.toJson))), ("omittedTotals", view.omittedTotals.toJson),
    ("truncated", .bool view.truncated)]

/-! ### Admission -/

/-- What an addition does to the view of its artifact. -/
def ArtifactView.add (view : ArtifactView) : OptionalAddition → ArtifactView
  | .evidence candidate => { view with
      evidence := view.evidence ++ [candidate.value]
      omitted.evidence := view.omitted.evidence - 1
      omitted.evidenceBytes := view.omitted.evidenceBytes + candidate.omittedBytes }
  | .changedPath candidate => { view with
      changedPaths := view.changedPaths ++ [candidate.value]
      omitted.changedPaths := view.omitted.changedPaths - 1
      omitted.changedPathBytes := view.omitted.changedPathBytes + candidate.omittedBytes }
  | .validation candidate => { view with
      controllerValidations := view.controllerValidations ++ [candidate]
      omitted.controllerValidations := view.omitted.controllerValidations - 1 }
  | .childVerification candidate => { view with
      childVerifications := view.childVerifications ++ [candidate.value]
      omitted.childVerifications := view.omitted.childVerifications - 1
      omitted.childVerificationBytes := view.omitted.childVerificationBytes + candidate.omittedBytes }
  | .risk candidate => { view with
      risks := view.risks ++ [candidate.value]
      omitted.risks := view.omitted.risks - 1
      omitted.riskBytes := view.omitted.riskBytes + candidate.omittedBytes }

def applyAddition (view : DependencyView) (dependencyIndex : ℕ) (addition : OptionalAddition) : DependencyView :=
  match view.dependencies[dependencyIndex]? with
  | none => view
  | some dependency => finalized (view.dependencies.set dependencyIndex (dependency.add addition))

section
variable (J : JsonText)

def serializedBytes (value : DependencyView) : ℕ := (J.stringify value.toJson).utf8ByteSize

/-- The addition at an index of the queue of a dependency, if it fits. -/
def admitStep (queues : List (List OptionalAddition)) (admitted : DependencyView)
    (additionIndex dependencyIndex : ℕ) : DependencyView :=
  match queues[dependencyIndex]?.bind (·[additionIndex]?) with
  | none => admitted
  | some addition =>
    let candidate := applyAddition admitted dependencyIndex addition
    if serializedBytes J candidate ≤ dependencyViewMaxBytes then candidate else admitted

def admitAdditions (view : DependencyView) (queues : List (List OptionalAddition)) : DependencyView :=
  let longestQueue := (queues.map List.length).foldl max 0
  (List.range longestQueue).foldl (fun admitted additionIndex =>
    (List.range queues.length).foldl (fun admitted dependencyIndex =>
      admitStep J queues admitted additionIndex dependencyIndex) admitted) view

/-- The critical details of an artifact, in another view of it. -/
def ArtifactView.pin (target source : ArtifactView) : ArtifactView :=
  { target with
    childVerifications := source.childVerifications
    risks := source.risks
    omitted.childVerifications := source.omitted.childVerifications
    omitted.childVerificationBytes := source.omitted.childVerificationBytes
    omitted.risks := source.omitted.risks
    omitted.riskBytes := source.omitted.riskBytes }

/-- The views of the artifacts with the critical details of others; those without others stay. -/
def pinAll : List ArtifactView → List ArtifactView → List ArtifactView
  | target :: targets, source :: sources => target.pin source :: pinAll targets sources
  | targets, _ => targets

def pinCriticalDetails (candidate critical : DependencyView) : DependencyView :=
  finalized (pinAll candidate.dependencies critical.dependencies)

/-- The search for the longest summaries that fit. -/
def searchSummaryLimit (artifacts : List Artifact) (critical : DependencyView) (low high : ℕ)
    (view : DependencyView) : DependencyView :=
  if low ≤ high then
    let candidateLimit := (low + high) / 2
    let candidate := pinCriticalDetails (initialView artifacts candidateLimit) critical
    if serializedBytes J candidate ≤ dependencyViewMaxBytes then
      searchSummaryLimit artifacts critical (candidateLimit + 1) high candidate
    else if candidateLimit = 0 then view
    else searchSummaryLimit artifacts critical low (candidateLimit - 1) view
  else view
termination_by high + 1 - low
decreasing_by all_goals omega

/-- `left <= right` of the comparison of ids. -/
def idLE (left right : Artifact) : Bool :=
  if left.taskId ≠ right.taskId then textLE left.taskId right.taskId
  else textLE left.artifactId right.artifactId

def sortArtifacts (input : List Artifact) : List Artifact := input.mergeSort idLE

def criticalView (artifacts : List Artifact) : DependencyView :=
  admitAdditions J (initialView artifacts minSummaryBytes) (artifacts.map criticalAdditionsFor)

def projectDependencyArtifacts (input : List Artifact) : Except String DependencyView :=
  let artifacts := sortArtifacts input
  if dependencyViewMaxBytes < serializedBytes J (initialView artifacts minSummaryBytes) then
    .error "Dependency identities exceed the fixed dependency-view byte limit"
  else
    let critical := criticalView J artifacts
    let view := searchSummaryLimit J artifacts critical minSummaryBytes summaryMaxBytes critical
    .ok (admitAdditions J view (artifacts.map additionsFor))

end

end Dependencies
end EasyPi.Subagent
