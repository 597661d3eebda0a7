import IcebergSST.TaskApi

/-!
# The engine's fetch loop

`_fetch` pulls units out of a connector generator. Between two yields the generator
records dispositions, publishes checkpoints and proposes a cursor; at each yield the
runner may flush a batch, and then inspects the unit and records a boundary. A
`ConnectorEvent` is one of those calls, a `Tick` what the world does at a yield: the
clock readings around the flush, the fate of each request, and whether the heartbeat
saw a cancellation.

`ApiState` is the task's rows together with the submissions the API accepted, in the
order of their commits; the log is a history variable and no code reads it.
-/

namespace IcebergSST

variable {κ β χ ρ σ α : Type}

structure ApiState (κ χ ρ : Type) where
  db : Db χ ρ
  batches : List (ProgressSubmission κ χ) := []
  results : List (ResultsSubmission κ ρ) := []

def ApiState.submitProgress (api : ApiState κ χ ρ) (engine : EngineId)
    (body : ProgressSubmission κ χ) : ApiState κ χ ρ × Except Refusal ProgressAccepted :=
  match IcebergSST.submitProgress api.db engine body with
  | (db, .ok { sequence, replay := false }) =>
      ({ api with db, batches := api.batches ++ [body] }, .ok { sequence })
  | (db, answer) => ({ api with db }, answer)

def ApiState.submitResults (api : ApiState κ χ ρ) (engine : EngineId)
    (body : ResultsSubmission κ ρ) : ApiState κ χ ρ × Except Refusal ResultsAccepted :=
  match IcebergSST.submitResults api.db engine body with
  | (db, .ok { replay := false, fetchTasksCreated }) =>
      ({ api with db, results := api.results ++ [body] }, .ok { fetchTasksCreated })
  | (db, answer) => ({ api with db }, answer)

/-- What becomes of one HTTP attempt: never processed (transport failure, or a 5xx
before the route ran), processed with its answer lost or unusable, processed and
answered, or turned away without being processed (a rejected token, another 4xx). -/
inductive Fate
  | requestLost
  | responseLost
  | answered
  | rejected
  deriving DecidableEq, Repr

inductive EngineApiError
  | leaseRefused
  | leaseNotHeld
  | rejected
  | unreachable
  deriving DecidableEq, Repr

def retryAttempts : ℕ := 4

/-- `EngineClient._request`: transport failures and 5xx are tried again, a considered
answer is not. Attempts beyond the schedule are lost. -/
def request (send : σ → σ × Except Refusal α) : ℕ → List Fate → σ → σ × Except EngineApiError α
  | 0, _, s => (s, .error .unreachable)
  | _ + 1, [], s => (s, .error .unreachable)
  | n + 1, .requestLost :: fates, s => request send n fates s
  | n + 1, .responseLost :: fates, s => request send n fates (send s).1
  | _ + 1, .rejected :: _, s => (s, .error .rejected)
  | n + 1, .answered :: fates, s =>
      match send s with
      | (s', .ok a) => (s', .ok a)
      | (s', .error .internalError) => request send n fates s'
      | (s', .error .notLeasedByEngine) => (s', .error .leaseNotHeld)
      | (s', .error .conflict) => (s', .error .leaseRefused)
      | (s', .error .unprocessable) => (s', .error .rejected)

def checkpointBatchFindings : ℤ := 500

def checkpointBatchSeconds : ℚ := 30

/-- One composed batch, held so a retry is a true retransmission. -/
structure Batch (κ χ : Type) where
  payload : ProgressSubmission κ χ
  checkpoint : χ
  covered : ℕ
  coverage : CoveragePayload
  counts : Counts

/-- Work completed as of the end of the last unit. -/
structure Boundary where
  candidates : ℕ
  coverage : CoveragePayload
  counts : Counts

structure Batcher (κ χ : Type) where
  rulepackVersion : Option String
  sequence : ℕ
  sentCoverage : CoveragePayload
  sentCandidates : ℕ := 0
  sentCounts : Counts := 0
  pending : Option Boundary := none
  flushedCheckpoint : Option χ := none
  deadline : ℚ
  inFlight : Option (Batch κ χ) := none

namespace Batcher

def boundary (b : Batcher κ χ) (candidates : ℕ) (coverage : CoveragePayload) (counts : Counts) :
    Batcher κ χ :=
  { b with pending := some ⟨candidates, coverage, counts⟩ }

def due [DecidableEq χ] (b : Batcher κ χ) (checkpoint : Option χ) (now : ℚ) : Bool :=
  if b.inFlight.isSome then b.deadline ≤ now
  else
    match b.pending with
    | none => false
    | some pending =>
        if checkpoint = none ∨ checkpoint = b.flushedCheckpoint then false
        else
          let unsent : ℤ := pending.candidates - b.sentCandidates
          if unsent ≤ 0 ∧ pending.candidates = b.sentCandidates then
            b.deadline ≤ now ∧ pending.coverage ≠ b.sentCoverage
          else checkpointBatchFindings ≤ unsent ∨ b.deadline ≤ now

def deltaCounts (counts sent : Counts) (suppressed : ℕ) : Counts
  | .prefiltered => suppressed
  | k => counts k - sent k

def compose (b : Batcher κ χ) (pending : Boundary) (checkpoint : χ) (findings : List κ)
    (suppressed : ℕ) : Batch κ χ where
  payload :=
    { sequence := b.sequence + 1
      checkpoint
      findings
      counts := deltaCounts pending.counts b.sentCounts suppressed
      coverage := some (coverageDelta pending.coverage b.sentCoverage)
      rulepackVersion := b.rulepackVersion }
  checkpoint
  covered := pending.candidates
  coverage := pending.coverage
  counts := pending.counts

/-- What a delivered answer does: below the offered number the batch was refused, at
or above it the ledger advances. -/
def acknowledge (b : Batcher κ χ) (batch : Batch κ χ) (reported : ℕ) : Batcher κ χ :=
  if reported < batch.payload.sequence then { b with inFlight := none }
  else
    { b with
      sequence := reported
      flushedCheckpoint := some batch.checkpoint
      sentCoverage := batch.coverage
      sentCounts := batch.counts
      sentCandidates := batch.covered
      pending := none
      inFlight := none }

def deliver (b : Batcher κ χ) (engine : EngineId) (fates : List Fate) (api : ApiState κ χ ρ) :
    Batcher κ χ × ApiState κ χ ρ :=
  match b.inFlight with
  | none => (b, api)
  | some batch =>
      match request (fun s => s.submitProgress engine batch.payload) retryAttempts fates api with
      | (api, .ok accepted) => (b.acknowledge batch accepted.sequence, api)
      | (api, .error _) => (b, api)

end Batcher

structure Lease (κ β χ : Type) where
  engine : EngineId
  idempotencyKey : IdempotencyKey
  rulepackVersion : String
  checkpoint : Option χ
  checkpointSequence : ℕ
  referenceKey : CoverageObjectKind → β → GapReference
  /-- Whether one of the suppressions in the lease covers a candidate. -/
  suppresses : κ → Bool
  /-- The source and spec, as the reference of a task-wide gap. -/
  taskReference : β
  /-- The connector declares `CHECKPOINTS`. -/
  checkpoints : Bool

structure ContentUnit (κ β : Type) where
  candidates : List κ
  droppedBelowThreshold : ℕ := 0
  truncated : Bool := false
  displayTruncated : Bool := false
  kind : CoverageObjectKind
  locator : β
  deriving DecidableEq

inductive ConnectorEvent (κ β χ ρ : Type)
  | scannedFor
  | skippedFor (reason : AllowedReason .skipped) (kind : CoverageObjectKind) (ref : Option β)
  | failedFor (reason : AllowedReason .failed) (kind : CoverageObjectKind) (ref : Option β)
  | scopeGapFor (reason : AllowedReason .scopeGap) (ref : Option β)
  | checkpointAt (c : χ)
  | cursorAt (c : ρ)
  | yield (unit : ContentUnit κ β)
  deriving DecidableEq

structure Tick where
  cancelled : Bool := false
  now : ℚ := 0
  fates : List Fate := []
  rearmed : ℚ := 0

inductive ConnectorFailureCode
  | connectorError
  | credentialRejected
  | rateLimited
  deriving DecidableEq, Repr

/-- How the loop was left. `error` is the text the handler reports. -/
inductive Exit
  | exhausted
  | connectorError (code : ConnectorFailureCode) (error : String)
  | interrupted (error : String)
  | unexpected (error : String)
  | cancelled
  deriving DecidableEq, Repr

/-- The locals of `_fetch`, with the exit once the loop was left from inside. -/
structure Fetch (κ β χ ρ : Type) where
  outcome : FetchOutcome β χ ρ
  candidates : List κ := []
  unitsTruncated : ℤ := 0
  droppedBelowThreshold : ℤ := 0
  batcher : Option (Batcher κ χ)
  exit : Option Exit := none

namespace Fetch

def start (lease : Lease κ β χ) (now : ℚ) : Fetch κ β χ ρ :=
  let outcome : FetchOutcome β χ ρ := .start (some lease.referenceKey)
  { outcome
    batcher :=
      if lease.checkpoints then
        some
          { rulepackVersion := some lease.rulepackVersion
            sequence := lease.checkpointSequence
            sentCoverage := (FetchOutcome.start none : FetchOutcome β χ ρ).asCoverage
            deadline := now + checkpointBatchSeconds }
      else none }

def counts (f : Fetch κ β χ ρ) : Counts
  | .unitsTruncated => f.unitsTruncated
  | .droppedBelowThreshold => f.droppedBelowThreshold
  | k => f.outcome.asCounts k

def sentCandidates (f : Fetch κ β χ ρ) : ℕ := f.batcher.elim 0 Batcher.sentCandidates

def prepare (suppresses : κ → Bool) (candidates : List κ) : List κ × ℕ :=
  (candidates.filter (fun c => !suppresses c), candidates.countP suppresses)

/-- The batcher with a batch to deliver: the one in flight, else the pending boundary
prepared and composed. -/
def load (lease : Lease κ β χ) (b : Batcher κ χ) (checkpoint : χ) (candidates : List κ) :
    Batcher κ χ :=
  match b.inFlight, b.pending with
  | none, some pending =>
      let slice := (candidates.take pending.candidates).drop b.sentCandidates
      let prepared := prepare lease.suppresses slice
      { b with inFlight := some (b.compose pending checkpoint prepared.1 prepared.2) }
  | _, _ => b

def flush (lease : Lease κ β χ) (b : Batcher κ χ) (checkpoint : χ) (candidates : List κ)
    (t : Tick) (api : ApiState κ χ ρ) : Batcher κ χ × ApiState κ χ ρ :=
  let delivered := (load lease b checkpoint candidates).deliver lease.engine t.fates api
  ({ delivered.1 with deadline := t.rearmed + checkpointBatchSeconds }, delivered.2)

/-- Before a unit is touched: flush if a boundary is due at the published checkpoint. -/
def beforeUnit [DecidableEq χ] (lease : Lease κ β χ) (f : Fetch κ β χ ρ) (t : Tick)
    (api : ApiState κ χ ρ) : Fetch κ β χ ρ × ApiState κ χ ρ :=
  match f.batcher, f.outcome.checkpoint with
  | some b, some published =>
      if b.due (some published) t.now then
        let flushed := flush lease b published f.candidates t api
        ({ f with batcher := some flushed.1 }, flushed.2)
      else (f, api)
  | _, _ => (f, api)

/-- Detect, account, and record the boundary at the end of the unit. -/
def inspect (f : Fetch κ β χ ρ) (u : ContentUnit κ β) : Fetch κ β χ ρ :=
  let tallied :=
    { f with
      droppedBelowThreshold := f.droppedBelowThreshold + u.droppedBelowThreshold
      unitsTruncated := f.unitsTruncated + if u.truncated then 1 else 0 }
  let accounted :=
    if u.truncated ∧ ¬ u.displayTruncated then
      f.outcome.scannedButIncomplete ⟨_, failed_outputLimit⟩ u.kind u.locator
    else some f.outcome
  match accounted with
  | none => { tallied with exit := some (.unexpected "ValueError") }
  | some outcome =>
      let extended := { tallied with outcome, candidates := f.candidates ++ u.candidates }
      { extended with
        batcher := extended.batcher.map
          (fun b => b.boundary extended.candidates.length outcome.asCoverage extended.counts) }

/-- One call of the connector, or one iteration of the loop at a yield. -/
def step [DecidableEq χ] (lease : Lease κ β χ) (e : ConnectorEvent κ β χ ρ) (t : Tick)
    (f : Fetch κ β χ ρ) (api : ApiState κ χ ρ) : Fetch κ β χ ρ × ApiState κ χ ρ :=
  if f.exit.isSome then (f, api)
  else
    match e with
    | .scannedFor => ({ f with outcome := f.outcome.scannedFor }, api)
    | .skippedFor reason kind ref =>
        ({ f with outcome := f.outcome.skippedFor reason kind ref }, api)
    | .failedFor reason kind ref =>
        ({ f with outcome := f.outcome.failedFor reason kind ref }, api)
    | .scopeGapFor reason ref => ({ f with outcome := f.outcome.scopeGapFor reason ref }, api)
    | .checkpointAt c => ({ f with outcome := f.outcome.checkpointAt c }, api)
    | .cursorAt c => ({ f with outcome := f.outcome.cursorAt c }, api)
    | .yield unit =>
        if t.cancelled then ({ f with exit := some .cancelled }, api)
        else
          let flushed := f.beforeUnit lease t api
          (flushed.1.inspect unit, flushed.2)

end Fetch

/-- A content-free reason suitable for the API and durable task state. -/
def incompleteContentError (failed truncated : ℤ) : Option String :=
  if failed ≠ 0 ∧ truncated = 0 then
    some s!"{failed} requested content {units failed} could not be read"
  else if truncated ≠ 0 ∧ failed = 0 then
    some (s!"{truncated} requested content {units truncated} " ++
      (if truncated = 1 then "was" else "were") ++ " truncated")
  else if failed ≠ 0 ∧ truncated ≠ 0 then
    some s!"{failed} requested content units could not be read and {truncated} were truncated"
  else none

def coverageReason : ConnectorFailureCode → AllowedReason .scopeGap
  | .credentialRejected => ⟨_, scopeGap_permissionDenied⟩
  | .rateLimited => ⟨.rateLimited, rfl⟩
  | .connectorError => ⟨_, scopeGap_connectorError⟩

/-- The task-wide gap each handler of `run_task` records, with the error it reports. -/
def Exit.gap : Exit → Option (AllowedReason .scopeGap × String)
  | .exhausted => none
  | .connectorError code error => some (coverageReason code, error)
  | .interrupted error => some (⟨.timeout, rfl⟩, error)
  | .unexpected error => some (⟨_, scopeGap_connectorError⟩, error)
  | .cancelled => none

namespace Fetch

/-- `_fetch`'s `finally` block, the handler of `run_task` and `as_submission`. A task
cancelled underneath the engine submits nothing. -/
def report (lease : Lease κ β χ) (f : Fetch κ β χ ρ) (exit : Exit) :
    Option (ResultsSubmission κ ρ) :=
  if exit = .cancelled then none
  else
    let remaining := f.candidates.drop f.sentCandidates
    let prepared := prepare lease.suppresses remaining
    let incomplete := incompleteContentError f.outcome.failed f.unitsTruncated
    let coverage :=
      match exit.gap with
      | none => f.outcome.coverage
      | some (reason, _) => f.outcome.coverage.scopeGap reason (some lease.taskReference)
    some
      { idempotencyKey := lease.idempotencyKey
        status := if exit.gap.isSome ∨ incomplete.isSome then .failed else .completed
        error := exit.gap.map Prod.snd <|> incomplete
        findings := prepared.1
        taskSpecs := []
        rulepackVersion := some lease.rulepackVersion
        counts := Batcher.deltaCounts f.counts (f.batcher.elim 0 Batcher.sentCounts) prepared.2
        coverage := some
          (match f.batcher with
            | none => coverage.asPayload
            | some b => coverageDelta coverage.asPayload b.sentCoverage)
        checkpointSequence := f.batcher.elim 0 Batcher.sequence
        cursor := f.outcome.cursor }

def finish (lease : Lease κ β χ) (f : Fetch κ β χ ρ) (exit : Exit) (fates : List Fate)
    (api : ApiState κ χ ρ) : ApiState κ χ ρ :=
  match f.report lease (f.exit.getD exit) with
  | none => api
  | some body => (request (fun s => s.submitResults lease.engine body) retryAttempts fates api).1

end Fetch

end IcebergSST
