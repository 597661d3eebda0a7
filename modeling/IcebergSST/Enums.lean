import Mathlib.Tactic

/-!
# The vocabulary shared by every role

The enumerations of `iceberg_core.enums` that the modelled functions read, with
the table of reasons each coverage disposition may carry.
-/

namespace IcebergSST

inductive ScanMode
  | full
  | incremental
  deriving DecidableEq, Repr

inductive CursorInvalidationReason
  | noCursor
  | sourceConfigurationChanged
  | rulepackChanged
  | pepperRotating
  | intervalElapsed
  | connectorUnsupported
  | operatorRequested
  | sourceRejectedCursor
  deriving DecidableEq, Repr

inductive ScanTaskKind
  | discovery
  | fetch
  deriving DecidableEq, Repr

inductive ScanTaskStatus
  | queued
  | leased
  | running
  | completed
  | failed
  | cancelled
  deriving DecidableEq, Repr

def ScanTaskStatus.Leased (s : ScanTaskStatus) : Bool :=
  s = .leased || s = .running

/-- Task states that will never change again. -/
def ScanTaskStatus.Terminal (s : ScanTaskStatus) : Bool :=
  s = .completed || s = .failed || s = .cancelled

theorem ScanTaskStatus.not_terminal_of_leased {s : ScanTaskStatus} (h : s.Leased) :
    s.Terminal = false := by
  cases s <;> simp_all [ScanTaskStatus.Leased, ScanTaskStatus.Terminal]

def maxCoverageGapReferences : ℕ := 10000

inductive CoverageReason
  | permissionDenied
  | rateLimited
  | sizeLimit
  | outputLimit
  | unsupportedType
  | connectorError
  | missingResource
  | invalidMetadata
  | invalidResponse
  | parseError
  | timeout
  | emptyContent
  | binaryContent
  | cancelled
  | unreported
  deriving DecidableEq, Repr

inductive CoverageDisposition
  | skipped
  | failed
  | scopeGap
  deriving DecidableEq, Repr

def coverageReasonAllowed : CoverageDisposition → CoverageReason → Bool
  | .skipped, .unsupportedType | .skipped, .emptyContent | .skipped, .binaryContent => true
  | .skipped, _ => false
  | .failed, .permissionDenied | .failed, .rateLimited | .failed, .sizeLimit
  | .failed, .outputLimit | .failed, .connectorError | .failed, .missingResource
  | .failed, .invalidMetadata | .failed, .invalidResponse | .failed, .parseError
  | .failed, .timeout => true
  | .failed, _ => false
  | .scopeGap, .permissionDenied | .scopeGap, .rateLimited | .scopeGap, .connectorError
  | .scopeGap, .missingResource | .scopeGap, .invalidMetadata | .scopeGap, .invalidResponse
  | .scopeGap, .timeout | .scopeGap, .cancelled | .scopeGap, .unreported => true
  | .scopeGap, _ => false

/-- A reason `_require_reason` lets through for this disposition. -/
abbrev AllowedReason (d : CoverageDisposition) := {r : CoverageReason // coverageReasonAllowed d r}

/-! Reasons that are recorded in several places, each allowed where it is. -/

theorem failed_permissionDenied : coverageReasonAllowed .failed .permissionDenied := rfl

theorem failed_outputLimit : coverageReasonAllowed .failed .outputLimit := rfl

theorem failed_connectorError : coverageReasonAllowed .failed .connectorError := rfl

theorem scopeGap_permissionDenied : coverageReasonAllowed .scopeGap .permissionDenied := rfl

theorem scopeGap_connectorError : coverageReasonAllowed .scopeGap .connectorError := rfl

theorem scopeGap_missingResource : coverageReasonAllowed .scopeGap .missingResource := rfl

theorem skipped_emptyContent : coverageReasonAllowed .skipped .emptyContent := rfl

theorem failed_sizeLimit : coverageReasonAllowed .failed .sizeLimit := rfl

theorem failed_invalidMetadata : coverageReasonAllowed .failed .invalidMetadata := rfl

theorem failed_invalidResponse : coverageReasonAllowed .failed .invalidResponse := rfl

theorem scopeGap_unreported : coverageReasonAllowed .scopeGap .unreported := rfl

inductive CoverageObjectKind
  | scope
  | page
  | comment
  | attachment
  | project
  | record
  | path
  deriving DecidableEq, Repr

end IcebergSST
