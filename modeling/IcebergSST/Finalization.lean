import IcebergSST.Assurance
import IcebergSST.AutoResolve

/-!
# Scans, their tasks and their finalization

A `Deployment` is the finding tables of its sources and all scans that were launched. The
requests of engines are transactions on the task records of a scan; each can start from
a version of its row that is no longer current. Finalization is taken statement by
statement: any number of callers read the tasks, one of them sets the final status and
goes on to the manifest, the selection and the conditional updates, and everything that
does not wait for the scan's row can come in between. A transaction that is rolled back
leaves nothing, so only those that commit appear.
-/

namespace IcebergSST

variable {κ χ ρ : Type}

def ScanStatus.Active (s : ScanStatus) : Bool := s = .queued || s = .discovering || s = .running

/-- Where a finalizing transaction stands after its update of the scan. -/
inductive FinalizationStage (χ ρ : Type)
  | updated
  /-- The manifest lets a full scan reconcile. -/
  | authorized (tasks : List (ScanTask χ ρ))
  | selected (tasks : List (ScanTask χ ρ)) (missing : List ℕ)
  | resolving (tasks : List (ScanTask χ ρ)) (missing : List ℕ)
  | settled

/-- `statuses` is what `finalize_scan_if_done` read; the stage holds the tasks read again. -/
structure Finalization (χ ρ : Type) where
  statuses : List ScanTaskStatus
  stage : FinalizationStage χ ρ := .updated

def Finalization.final (f : Finalization χ ρ) : ScanStatus := finalStatus f.statuses

structure ScanRun (χ ρ : Type) where
  sourceId : ℕ
  mode : ScanMode
  status : ScanStatus := .queued
  tasks : List (TaskRecord FindingPayload χ ρ)
  /-- What callers of `finalize_scan_if_done` have read. -/
  reads : List (List ScanTaskStatus) := []
  /-- The transaction that has set the final status and not yet committed. -/
  finalizing : Option (Finalization χ ρ) := none
  /-- How often a final status was set. -/
  finalizations : ℕ := 0
  /-- The findings of accepted submissions, with the threshold each was held to. -/
  accepted : List (FindingPayload × ℚ) := []

structure Deployment (χ ρ : Type) where
  /-- The finding rows of each source. -/
  findings : ℕ → List Finding
  scans : List (ScanRun χ ρ) := []

structure IngestContext where
  suppressions : List Suppression := []
  now : ℕ := 0
  threshold : ℚ

/-- The writers of the finding table other than ingest and reconciliation. -/
inductive FindingWrite
  | triage (id : ℕ) (target : FindingState)
  | suppress (s : Suppression) (now : ℕ)
  | unsuppress (suppressions : List Suppression) (s : Suppression) (now : ℕ)
  | lapse (suppressions : List Suppression) (now : ℕ)

inductive FinalizeAction
  | read
  | update (k : ℕ)
  | manifest
  | select
  | count
  | resolve
  | commit
  deriving DecidableEq

inductive DeploymentAction (χ ρ : Type)
  | launch (sourceId : ℕ) (mode : ScanMode) (scan : Scan)
  | task (i j : ℕ) (a : RecordAction FindingPayload χ ρ) (context : IngestContext)
  | cancel (i : ℕ)
  | finalize (i : ℕ) (a : FinalizeAction)
  | write (sourceId : ℕ) (a : FindingWrite)

def FindingWrite.apply (sourceId : ℕ) : FindingWrite → List Finding → List Finding
  | .triage id target => fun rows => rows.map fun f => if f.id = id then triageTo target f else f
  | .suppress s now => applyToExisting s sourceId now
  | .unsuppress suppressions s now => releaseCoveredBy suppressions s sourceId now
  | .lapse suppressions now => releaseLapsed suppressions sourceId now

namespace RecordAction

/-- The submissions wait for the lock on the scan's row. -/
def LocksScan : RecordAction κ χ ρ → Bool
  | .progress .. | .results .. => true
  | _ => false

/-- Cancellation is one transaction over all tasks of a scan. -/
def OfOneTask : RecordAction κ χ ρ → Bool
  | .cancel => false
  | _ => true

def accepted (record : TaskRecord κ χ ρ) : RecordAction κ χ ρ → Option (List κ × List TaskSpec)
  | .progress read engine body =>
      record.versions[read]?.bind fun seen =>
        match (lockedProgress seen.task record.db engine body).2 with
        | .ok { replay := false, .. } => some (body.findings, [])
        | _ => none
  | .results read engine body =>
      record.versions[read]?.bind fun seen =>
        match (lockedResults seen.task record.db engine body).2 with
        | .ok { replay := false, .. } => some (body.findings, body.taskSpecs)
        | _ => none
  | _ => none

end RecordAction

namespace ScanRun

/-- A lease on a task of a scan that was only queued sets the scan going. -/
def statusAfter (run : ScanRun χ ρ) (record : TaskRecord FindingPayload χ ρ) :
    RecordAction FindingPayload χ ρ → ScanStatus
  | .lease _ =>
      if run.status = .queued then
        if record.db.task.kind = .discovery then .discovering else .running
      else run.status
  | _ => run.status

def createFetchTasks (run : ScanRun χ ρ) (scan : Scan) (specs : List TaskSpec) : ScanRun χ ρ :=
  if specs ≠ [] ∧ run.status.Active then
    { run with
      status := .running
      tasks := run.tasks ++ specs.mapIdx fun k _ => .start scan (run.tasks.length + k) .fetch }
  else run

def cancelled (run : ScanRun χ ρ) : ScanRun χ ρ :=
  { run with
    tasks := run.tasks.map fun record => record.commit (cancelTask record.db)
    status := if run.status.Active then .cancelled else run.status }

end ScanRun

namespace ScanRun

def statuses (run : ScanRun χ ρ) : List ScanTaskStatus := run.tasks.map (·.db.task.status)

def advance (run : ScanRun χ ρ) (statuses : List ScanTaskStatus) (stage : FinalizationStage χ ρ) :
    ScanRun χ ρ := { run with finalizing := some { statuses, stage } }

def missing (i : ℕ) (rows : List Finding) : List ℕ :=
  (rows.filter fun f => f.state = .opened && f.lastSeenScanId ≠ i &&
    f.suppressedAt.isNone).map (·.id)

/-- `finalize_scan_if_done` and `finalize_and_reconcile`, one statement at a time, with the
finding rows of the source. -/
def finalize (i : ℕ) (rows : List Finding) (run : ScanRun χ ρ) :
    FinalizeAction → Option (List Finding × ScanRun χ ρ)
  | .read =>
      if run.tasks ≠ [] ∧ run.statuses.all (·.Terminal) then
        some (rows, { run with reads := run.reads ++ [run.statuses] })
      else none
  | .update k =>
      run.reads[k]?.bind fun statuses =>
        if run.status.Active ∧ run.finalizing.isNone then
          some (rows, { run with
            finalizing := some { statuses }
            finalizations := run.finalizations + 1 })
        else none
  | .manifest =>
      match run.finalizing with
      | some { statuses, stage := .updated } =>
          let final := finalStatus statuses
          let tasks := run.tasks.map (·.db.task)
          some (rows, run.advance statuses
            (if final = .completed ∧ (buildManifest final tasks).coverageState = .complete ∧
                run.mode = .full then .authorized tasks
            else .settled))
      | _ => none
  | .select =>
      match run.finalizing with
      | some { statuses, stage := .authorized tasks } =>
          some (rows, run.advance statuses (.selected tasks (missing i rows)))
      | _ => none
  | .count =>
      match run.finalizing with
      | some { statuses, stage := .selected tasks missing } =>
          some (rows, run.advance statuses
            (if missing ≠ [] ∧ ¬ run.tasks.any (·.db.task.kind = .fetch) then .settled
            else .resolving tasks missing))
      | _ => none
  | .resolve =>
      match run.finalizing with
      | some { statuses, stage := .resolving tasks (id :: rest) } =>
          some (rows.map (autoResolve id), run.advance statuses (.resolving tasks rest))
      | _ => none
  | .commit =>
      match run.finalizing with
      | some { statuses, stage := .resolving _ [] } | some { statuses, stage := .settled } =>
          some (rows, { run with status := finalStatus statuses, finalizing := none })
      | _ => none

end ScanRun

namespace Deployment

def put (w : Deployment χ ρ) (i : ℕ) (run : ScanRun χ ρ) : Deployment χ ρ :=
  { w with scans := w.scans.set i run }

def store (w : Deployment χ ρ) (sourceId : ℕ) (rows : List Finding) : Deployment χ ρ :=
  { w with findings := Function.update w.findings sourceId rows }

def accept (w : Deployment χ ρ) (i : ℕ) (run : ScanRun χ ρ) (record : TaskRecord FindingPayload χ ρ)
    (context : IngestContext) (findings : List FindingPayload) (specs : List TaskSpec) :
    Deployment χ ρ :=
  if record.db.task.kind = .discovery then w.put i (run.createFetchTasks record.db.scan specs)
  else
    (w.store run.sourceId (ingestFindings context.suppressions run.sourceId i context.now
      context.threshold (w.findings run.sourceId) findings)).put i
        { run with accepted := run.accepted ++ findings.map (·, context.threshold) }

def takeTask (w : Deployment χ ρ) (i j : ℕ) (run : ScanRun χ ρ)
    (record : TaskRecord FindingPayload χ ρ) (a : RecordAction FindingPayload χ ρ)
    (context : IngestContext) : Option (Deployment χ ρ) :=
  if ¬ a.OfOneTask ∨ (a.LocksScan ∧ run.finalizing.isSome) then none
  else
    (record.step a).map fun record' =>
      let run' := { run with tasks := run.tasks.set j record', status := run.statusAfter record a }
      match a.accepted record with
      | none => w.put i run'
      | some (findings, specs) => w.accept i run' record' context findings specs

/-- At most one scan of a source is active. Cancelling waits for a finalization to end. -/
def step (w : Deployment χ ρ) : DeploymentAction χ ρ → Option (Deployment χ ρ)
  | .launch sourceId mode scan =>
      if w.scans.any fun run => run.sourceId = sourceId && run.status.Active then none
      else some { w with
        scans := w.scans ++ [{ sourceId, mode, tasks := [.start scan 0 .discovery] }] }
  | .task i j a context =>
      w.scans[i]?.bind fun run =>
        run.tasks[j]?.bind fun record => w.takeTask i j run record a context
  | .cancel i =>
      w.scans[i]?.bind fun run =>
        if run.finalizing.isSome then none else some (w.put i run.cancelled)
  | .finalize i a =>
      w.scans[i]?.bind fun run =>
        (run.finalize i (w.findings run.sourceId) a).map fun out =>
          (w.store run.sourceId out.1).put i out.2
  | .write sourceId a => some (w.store sourceId (a.apply sourceId (w.findings sourceId)))

/-- Before any scan, the tables hold what earlier ones left. -/
def IsInitial (w : Deployment χ ρ) : Prop := w.scans = [] ∧ ∀ s, Keyed (w.findings s)

end Deployment

end IcebergSST
