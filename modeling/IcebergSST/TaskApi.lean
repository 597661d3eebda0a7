import IcebergSST.Outcome

/-!
# The API's side of one task

The rows a lease, a progress batch and a results submission read and write, and the
conditional updates that guard them. `Db` is one task with its scan. Each route
returns the database it leaves behind together with its answer, so a refused request
is one that returns the database it was given.

Findings enter here as an opaque payload type `κ`: ingest stores them in the same
transaction, and which stored rows they become is not this module's concern. `χ` and
`ρ` are the connector's checkpoints and cursor proposals.
-/

namespace IcebergSST

variable {κ χ ρ : Type}

abbrev EngineId := ℕ

instance : Fintype CountKey where
  elems := {.units, .unitsSkipped, .unitsFailed, .unitsTruncated, .droppedBelowThreshold,
    .prefiltered, .specsDiscovered}
  complete k := by cases k <;> decide

def maxBatchSequence : ℕ := 1000

/-- `<task id>:<attempt>`, what makes a results retry a replay. -/
structure IdempotencyKey where
  taskId : ℕ
  attempt : ℕ
  deriving DecidableEq, Repr

structure CheckpointContext where
  sourceConfigurationVersion : Option ℕ := none
  rulepackVersion : Option String := none
  deriving DecidableEq, Repr

structure Scan where
  rulepackVersion : Option String := none
  sourceConfigurationVersion : Option ℕ := none
  counts : Counts := 0

structure ScanTask (χ ρ : Type) where
  id : ℕ
  kind : ScanTaskKind
  status : ScanTaskStatus := .queued
  engineId : Option EngineId := none
  attempts : ℕ := 0
  resultKey : Option IdempotencyKey := none
  coverage : Option TaskCoverageReport := none
  /-- `none` is the empty mapping: no resume point. -/
  checkpoint : Option χ := none
  checkpointSequence : ℕ := 0
  checkpointContext : CheckpointContext := {}
  cursorProposal : Option ρ := none
  error : Option String := none

structure Db (χ ρ : Type) where
  scan : Scan
  task : ScanTask χ ρ

inductive Refusal
  | notLeasedByEngine
  | unprocessable
  | conflict
  | internalError
  deriving DecidableEq, Repr

structure ProgressSubmission (κ χ : Type) where
  sequence : ℕ
  checkpoint : χ
  findings : List κ
  counts : Counts
  coverage : Option CoveragePayload
  rulepackVersion : Option String

structure ProgressSubmission.Valid (body : ProgressSubmission κ χ) : Prop where
  sequence_pos : 1 ≤ body.sequence
  sequence_le : body.sequence ≤ maxBatchSequence
  counts_nonneg : ∀ k, 0 ≤ body.counts k
  coverage : ∀ c ∈ body.coverage, c.Valid

instance (body : ProgressSubmission κ χ) : Decidable body.Valid :=
  decidable_of_iff ((1 ≤ body.sequence ∧ body.sequence ≤ maxBatchSequence) ∧
      (∀ k, 0 ≤ body.counts k) ∧ ∀ c ∈ body.coverage, c.Valid)
    ⟨fun h => ⟨h.1.1, h.1.2, h.2.1, h.2.2⟩, fun h => ⟨⟨h.1, h.2⟩, h.3, h.4⟩⟩

structure ProgressAccepted where
  sequence : ℕ
  replay : Bool := false
  deriving DecidableEq, Repr

/-- One unit of fetch work, as discovery describes it. -/
structure TaskSpec where
  label : String
  params : List (String × String) := []
  deriving DecidableEq, Repr

structure ResultsSubmission (κ ρ : Type) where
  idempotencyKey : IdempotencyKey
  status : ScanTaskStatus
  error : Option String := none
  findings : List κ := []
  taskSpecs : List TaskSpec := []
  rulepackVersion : Option String := none
  counts : Counts := 0
  coverage : Option CoveragePayload := none
  checkpointSequence : ℕ := 0
  cursor : Option ρ := none

structure ResultsSubmission.Valid (body : ResultsSubmission κ ρ) : Prop where
  counts_nonneg : ∀ k, 0 ≤ body.counts k
  coverage : ∀ c ∈ body.coverage, c.Valid
  sequence_le : body.checkpointSequence ≤ maxBatchSequence

instance (body : ResultsSubmission κ ρ) : Decidable body.Valid :=
  decidable_of_iff ((∀ k, 0 ≤ body.counts k) ∧ (∀ c ∈ body.coverage, c.Valid) ∧
      body.checkpointSequence ≤ maxBatchSequence)
    ⟨fun h => ⟨h.1, h.2.1, h.2.2⟩, fun h => ⟨h.1, h.2, h.3⟩⟩

structure ResultsAccepted where
  replay : Bool := false
  fetchTasksCreated : ℕ := 0
  deriving DecidableEq, Repr

/-- The coverage already accumulated on a task: a report of another phase counts as none. -/
def storedTaskReport (task : ScanTask χ ρ) : Option TaskCoverageReport :=
  task.coverage.filter (fun r => r.payload.phase = task.kind)

theorem storedTaskReport_of_phase {task : ScanTask χ ρ} {r : TaskCoverageReport}
    (hcov : task.coverage = some r) (hphase : r.payload.phase = task.kind) :
    storedTaskReport task = some r := by
  unfold storedTaskReport
  rw [hcov]
  simp [Option.filter, hphase]

theorem storedTaskReport_eq {task : ScanTask χ ρ}
    (h : ∀ r ∈ task.coverage, r.payload.phase = task.kind) :
    storedTaskReport task = task.coverage := by
  cases hc : task.coverage with
  | none =>
      unfold storedTaskReport
      rw [hc]
      rfl
  | some r => exact storedTaskReport_of_phase hc (h r hc)

/-- The validated report inside a body that passed its schema. -/
def reportOf (coverage : Option CoveragePayload) (h : ∀ c ∈ coverage, c.Valid) :
    Option TaskCoverageReport :=
  match coverage, h with
  | none, _ => none
  | some c, h => some ⟨c, h c rfl⟩

/-- Claim a queued task for one engine; `none` when the task is not queued. -/
def claimTask (db : Db χ ρ) (engine : EngineId) : Option (Db χ ρ) :=
  if db.task.status = .queued then
    some { db with
      task := { db.task with
        status := .leased
        engineId := some engine
        attempts := db.task.attempts + 1 } }
  else none

/-- Extend a live lease held by the engine the row names. -/
def renewLease (db : Db χ ρ) : Db χ ρ :=
  if db.task.status.Leased then { db with task := { db.task with status := .running } } else db

def reclaimExpiredLease (db : Db χ ρ) : Db χ ρ :=
  if db.task.status.Leased then
    { db with task := { db.task with status := .queued, engineId := none } }
  else db

def checkpointStillValid (task : ScanTask χ ρ) (scan : Scan) : Bool :=
  task.checkpointContext.sourceConfigurationVersion = scan.sourceConfigurationVersion &&
    task.checkpointContext.rulepackVersion = scan.rulepackVersion

/-- Drop a resume point the current configuration no longer licenses. The sequence is
deliberately not reset. -/
def discardCheckpoint (db : Db χ ρ) : Db χ ρ :=
  { db with task := { db.task with checkpoint := none, checkpointContext := {} } }

/-- Claim batch `sequence` and store its resume point, if the engine still holds the
lease, no results were accepted, and the stored counter is exactly one behind. -/
def advanceCheckpoint (task : ScanTask χ ρ) (engine : EngineId) (sequence : ℕ) (checkpoint : χ)
    (context : CheckpointContext) : Option (ScanTask χ ρ) :=
  if task.engineId = some engine ∧ task.status.Leased ∧ task.resultKey = none ∧
      task.checkpointSequence + 1 = sequence then
    some { task with
      checkpoint := some checkpoint
      checkpointSequence := sequence
      checkpointContext := context }
  else none

def claimResult (task : ScanTask χ ρ) (engine : EngineId) (key : IdempotencyKey) :
    Option (ScanTask χ ρ) :=
  if task.engineId = some engine ∧ task.status.Leased ∧ task.resultKey = none then
    some { task with resultKey := some key }
  else none

/-- The engine-side half of `merge_scan_counts`: tallies add up key by key. -/
def mergeScanCounts (scan : Scan) (engineCounts : Counts) : Scan :=
  { scan with counts := scan.counts + engineCounts }

def recordRulepack (scan : Scan) (version : Option String) : Scan :=
  if version.isSome then { scan with rulepackVersion := version } else scan

def failureReport (phase : ScanTaskKind) (reason : AllowedReason .scopeGap) :
    TaskCoverageReport where
  payload :=
    { version := "1"
      phase
      counts := ⟨0, 0, 0, 0, 0⟩
      scope := ⟨none, 0, 1⟩
      reasons := [⟨(.scopeGap, reason), 1⟩]
      gaps := []
      gapsOmitted := 1 }
  valid := by
    rcases reason with ⟨r, hr⟩
    rw [CoveragePayload.valid_iff]
    refine ⟨rfl, ⟨le_rfl, le_rfl, le_rfl, le_rfl, le_rfl, rfl, rfl⟩,
      (CoverageScope.valid_iff _).2 ⟨le_rfl, zero_le_one, Or.inl rfl⟩, ?_, by simp, by simp,
      by simp, by simp, ?_, ?_, ?_, by simp, by simp, by simp, by simp⟩
    · intro e he
      obtain rfl := List.mem_singleton.1 he
      exact ⟨one_pos, hr⟩
    all_goals simp [outcomeTotal]

/-- The cancellation gap merged onto what the task had already reported. -/
def cancelledReport (task : ScanTask χ ρ) : Option TaskCoverageReport :=
  mergeTaskReport (storedTaskReport task) (failureReport task.kind ⟨.cancelled, rfl⟩)

def cancelTask (db : Db χ ρ) : Db χ ρ :=
  if db.task.status.Terminal then db
  else
    { db with
      task := { db.task with
        status := .cancelled
        coverage := cancelledReport db.task <|> db.task.coverage } }

/-- `POST /scan-tasks/{id}/progress` -/
def submitProgress (db : Db χ ρ) (engine : EngineId) (body : ProgressSubmission κ χ) :
    Db χ ρ × Except Refusal ProgressAccepted :=
  if hvalid : body.Valid then
    if db.task.engineId ≠ some engine then (db, .error .notLeasedByEngine)
    else if db.task.kind ≠ .fetch then (db, .error .unprocessable)
    else
      let context : CheckpointContext :=
        { sourceConfigurationVersion := db.scan.sourceConfigurationVersion
          rulepackVersion := body.rulepackVersion }
      match advanceCheckpoint db.task engine body.sequence body.checkpoint context with
      | none =>
          -- duplicate, out of order, or a lease that has gone: nothing was ingested
          if db.task.resultKey ≠ none then (db, .error .conflict)
          else (db, .ok { sequence := db.task.checkpointSequence, replay := true })
      | some task =>
          match reportOf body.coverage hvalid.coverage with
          | none =>
              ({ scan := recordRulepack (mergeScanCounts db.scan body.counts) body.rulepackVersion
                 task }, .ok { sequence := body.sequence })
          | some delta =>
              match mergeTaskReport (storedTaskReport task) delta with
              | none => (db, .error .internalError)
              | some merged =>
                  ({ scan := recordRulepack (mergeScanCounts db.scan body.counts)
                       body.rulepackVersion
                     task := { task with coverage := some merged } },
                    .ok { sequence := body.sequence })
  else (db, .error .unprocessable)

def units (n : ℤ) : String := if n = 1 then "unit" else "units"

/-- Fail closed when a connector could not read requested content. -/
def effectiveOutcome (body : ResultsSubmission κ ρ) (counts : Counts)
    (coverage : Option TaskCoverageReport) : ScanTaskStatus × Option String :=
  let failedUnits := counts .unitsFailed
  let truncatedUnits := counts .unitsTruncated
  if body.status = .completed ∧ coverage.any (fun r =>
      r.payload.counts.failed ≠ 0 || r.payload.scope.gaps ≠ 0) then
    (.failed, some "coverage report contains uninspected requested content")
  else if body.status = .completed ∧ 0 < failedUnits ∧ truncatedUnits = 0 then
    (.failed, some s!"{failedUnits} requested content {units failedUnits} could not be read")
  else if body.status = .completed ∧ 0 < truncatedUnits ∧ failedUnits = 0 then
    (.failed, some (s!"{truncatedUnits} requested content {units truncatedUnits} " ++
      (if truncatedUnits = 1 then "was" else "were") ++ " truncated"))
  else if body.status = .completed ∧ (0 < failedUnits ∨ 0 < truncatedUnits) then
    (.failed, some (s!"{failedUnits} requested content units could not be read and " ++
      s!"{truncatedUnits} were truncated"))
  else (body.status, body.error)

def completeTask (task : ScanTask χ ρ) (status : ScanTaskStatus) (error : Option String)
    (coverage : Option TaskCoverageReport) : ScanTask χ ρ :=
  { task with status, error, coverage := coverage <|> task.coverage }

/-- The secrets a lease needs that the store may fail to produce. -/
inductive LeaseFailure
  | pepper
  | credential
  deriving DecidableEq, Repr

def LeaseFailure.error : LeaseFailure → String
  | .pepper => "fingerprint pepper unavailable"
  | .credential => "source credential unreadable"

def LeaseFailure.reason : LeaseFailure → AllowedReason .scopeGap
  | .pepper => ⟨_, scopeGap_connectorError⟩
  | .credential => ⟨_, scopeGap_permissionDenied⟩

/-- What `lease_task` leaves of a claimed task whose secrets cannot be read. -/
def failLease (db : Db χ ρ) (engine : EngineId) (failure : LeaseFailure) : Option (Db χ ρ) :=
  (claimTask db engine).map fun db =>
    { db with
      task := completeTask db.task .failed (some failure.error)
        (some (failureReport db.task.kind failure.reason)) }

/-- The checks `submit_results` makes before it takes the scan lock, in its order. -/
def resultsRefusal (db : Db χ ρ) (engine : EngineId) (body : ResultsSubmission κ ρ) :
    Option Refusal :=
  if db.task.engineId ≠ some engine then some .notLeasedByEngine
  else if body.status ≠ .completed ∧ body.status ≠ .failed then some .unprocessable
  else if body.coverage.any (fun c => c.phase ≠ db.task.kind) then some .unprocessable
  else if db.task.kind = .discovery ∧
      body.coverage.any (fun c => c.scope.discovered ≠ (body.taskSpecs.length : ℤ)) then
    some .unprocessable
  else if db.task.kind = .discovery ∧ body.findings ≠ [] then some .unprocessable
  else if body.checkpointSequence ≠ db.task.checkpointSequence then some .conflict
  else if db.task.kind = .fetch ∧ body.taskSpecs ≠ [] then some .unprocessable
  else none

/-- The coverage a terminal submission is judged by: its own when no batch preceded
it, otherwise merged onto what the batches recorded. `none` is the merge's error. -/
def mergedCoverage (task : ScanTask χ ρ) (sequence : ℕ) (coverage : Option TaskCoverageReport) :
    Option (Option TaskCoverageReport) :=
  if 0 < sequence then
    match coverage with
    | none => some (storedTaskReport task)
    | some delta => (mergeTaskReport (storedTaskReport task) delta).map some
  else some coverage

/-- `POST /scan-tasks/{id}/results` -/
def submitResults (db : Db χ ρ) (engine : EngineId) (body : ResultsSubmission κ ρ) :
    Db χ ρ × Except Refusal ResultsAccepted :=
  if hvalid : body.Valid then
    match resultsRefusal db engine body with
    | some refusal => (db, .error refusal)
    | none =>
        match claimResult db.task engine body.idempotencyKey with
        | none =>
            if db.task.resultKey = some body.idempotencyKey then (db, .ok { replay := true })
            else (db, .error .conflict)
        | some task =>
            match mergedCoverage task body.checkpointSequence
                (reportOf body.coverage hvalid.coverage) with
            | none => (db, .error .internalError)
            | some merged =>
                let outcome := effectiveOutcome body body.counts merged
                let task := { task with cursorProposal := body.cursor <|> task.cursorProposal }
                ({ scan := recordRulepack (mergeScanCounts db.scan body.counts)
                     body.rulepackVersion
                   task := completeTask task outcome.1 outcome.2 merged },
                  .ok { fetchTasksCreated :=
                    if db.task.kind = .discovery then body.taskSpecs.length else 0 })
  else (db, .error .unprocessable)

end IcebergSST
