import IcebergSST.Lifecycle

/-!
# The submission routes as transactions

A submission route reads the task row once, checks the body against what it read, and
only then locks the scan. Under the lock the conditional update is decided by the row
as it then stands, while everything else, the coverage to merge onto included, still
comes from the object that was read first. `row` is that object.

With nothing between the two reads the routes are those of the task's API.
-/

namespace IcebergSST

variable {κ β χ ρ : Type}

/-- The checks `submit_progress` makes before it takes the scan lock, in its order. -/
def progressRefusal (row : ScanTask χ ρ) (engine : EngineId) (body : ProgressSubmission κ χ) :
    Option Refusal :=
  if ¬ body.Valid then some .unprocessable
  else if row.engineId ≠ some engine then some .notLeasedByEngine
  else if row.kind ≠ .fetch then some .unprocessable
  else none

/-- `submit_progress` from the scan lock on. A refused batch is answered from the row
read again. -/
def lockedProgress (row : ScanTask χ ρ) (db : Db χ ρ) (engine : EngineId)
    (body : ProgressSubmission κ χ) : Db χ ρ × Except Refusal ProgressAccepted :=
  if hvalid : body.Valid then
    let context : CheckpointContext :=
      { sourceConfigurationVersion := db.scan.sourceConfigurationVersion
        rulepackVersion := body.rulepackVersion }
    match advanceCheckpoint db.task engine body.sequence body.checkpoint context with
    | none =>
        if db.task.engineId ≠ some engine ∨ db.task.resultKey ≠ none then (db, .error .conflict)
        else (db, .ok { sequence := db.task.checkpointSequence, replay := true })
    | some task =>
        let scan := recordRulepack (mergeScanCounts db.scan body.counts) body.rulepackVersion
        match reportOf body.coverage hvalid.coverage with
        | none => ({ scan, task }, .ok { sequence := body.sequence })
        | some delta =>
            match mergeTaskReport (storedTaskReport row) delta with
            | none => (db, .error .internalError)
            | some merged =>
                ({ scan, task := { task with coverage := some merged } },
                  .ok { sequence := body.sequence })
  else (db, .error .unprocessable)

theorem submitProgress_eq_locked (db : Db χ ρ) (engine : EngineId)
    (body : ProgressSubmission κ χ) :
    submitProgress db engine body =
      match progressRefusal db.task engine body with
      | some refusal => (db, .error refusal)
      | none => lockedProgress db.task db engine body := by
  unfold submitProgress progressRefusal lockedProgress
  by_cases hvalid : body.Valid
  · by_cases hengine : db.task.engineId = some engine
    · by_cases hkind : db.task.kind = .fetch
      · simp only [hvalid, hengine, hkind, dif_pos, not_true, ne_eq, if_false, false_or]
        cases hadv : advanceCheckpoint db.task engine body.sequence body.checkpoint
            { sourceConfigurationVersion := db.scan.sourceConfigurationVersion
              rulepackVersion := body.rulepackVersion } with
        | none => rfl
        | some task =>
            obtain ⟨_, _, _, _, rfl⟩ := advanceCheckpoint_eq_some hadv
            rfl
      · simp [hvalid, hengine, hkind]
    · simp [hvalid, hengine]
  · simp [hvalid]

/-- The row after a batch: the counter, resume point and context, and the coverage. -/
structure BatchStored (row : ScanTask χ ρ) (db db' : Db χ ρ) (engine : EngineId)
    (body : ProgressSubmission κ χ) : Prop where
  engine : db.task.engineId = some engine
  leased : db.task.status.Leased
  unreported : db.task.resultKey = none
  sequence : db.task.checkpointSequence + 1 = body.sequence
  scan : db'.scan = recordRulepack (mergeScanCounts db.scan body.counts) body.rulepackVersion
  task : ∃ coverage, db'.task = { db.task with
    checkpoint := some body.checkpoint
    checkpointSequence := body.sequence
    checkpointContext :=
      { sourceConfigurationVersion := db.scan.sourceConfigurationVersion
        rulepackVersion := body.rulepackVersion }
    coverage } ∧
    ((body.coverage = none ∧ coverage = db.task.coverage) ∨
      ∃ delta merged, body.coverage = some delta.payload ∧ coverage = some merged ∧
        mergeTaskReport (storedTaskReport row) delta = some merged)

/-- A batch is stored and its own number answered, or nothing changes; then the stored
counter is answered only to an engine that the row still names. -/
theorem lockedProgress_cases (row : ScanTask χ ρ) (db : Db χ ρ) (engine : EngineId)
    (body : ProgressSubmission κ χ) :
    (BatchStored row db (lockedProgress row db engine body).1 engine body ∧
      (lockedProgress row db engine body).2 = .ok { sequence := body.sequence }) ∨
    ((lockedProgress row db engine body).1 = db ∧
      ∀ a, (lockedProgress row db engine body).2 = .ok a →
        a = { sequence := db.task.checkpointSequence, replay := true } ∧
          db.task.engineId = some engine ∧
          (db.task.status.Leased → db.task.checkpointSequence + 1 ≠ body.sequence)) := by
  unfold lockedProgress
  by_cases hvalid : body.Valid
  · simp only [hvalid, dif_pos]
    cases hadv : advanceCheckpoint db.task engine body.sequence body.checkpoint
        { sourceConfigurationVersion := db.scan.sourceConfigurationVersion
          rulepackVersion := body.rulepackVersion } with
    | none =>
        right
        simp only
        split_ifs with hgone
        · exact ⟨rfl, fun a ha => by cases ha⟩
        · refine ⟨rfl, fun a ha => ?_⟩
          obtain ⟨hengine, hkey⟩ := not_or.1 hgone
          rw [not_not] at hengine hkey
          refine ⟨(Except.ok.inj ha).symm, hengine, fun hleased hseq => ?_⟩
          simp only [advanceCheckpoint, hengine, hleased, hkey, hseq, and_self, if_true,
            reduceCtorEq] at hadv
    | some task =>
        obtain ⟨hengine, hleased, hkey, hseq, rfl⟩ := advanceCheckpoint_eq_some hadv
        simp only
        cases hreport : reportOf body.coverage hvalid.coverage with
        | none =>
            left
            exact ⟨⟨hengine, hleased, hkey, hseq, rfl, _, rfl,
              Or.inl ⟨reportOf_eq_none hreport, rfl⟩⟩, rfl⟩
        | some delta =>
            simp only
            cases hmerge : mergeTaskReport (storedTaskReport row) delta with
            | none => exact Or.inr ⟨rfl, fun a ha => by cases ha⟩
            | some merged =>
                left
                exact ⟨⟨hengine, hleased, hkey, hseq, rfl, _, rfl,
                  Or.inr ⟨delta, merged, reportOf_eq_some hreport, rfl, hmerge⟩⟩, rfl⟩
  · simp only [hvalid, dif_neg, not_false_eq_true]
    exact Or.inr ⟨by simp, fun a ha => by simp at ha⟩

def lockedResults (row : ScanTask χ ρ) (db : Db χ ρ) (engine : EngineId)
    (body : ResultsSubmission κ ρ) : Db χ ρ × Except Refusal ResultsAccepted :=
  if hvalid : body.Valid then
    match claimResult db.task engine body.idempotencyKey with
    | none =>
        if db.task.resultKey = some body.idempotencyKey then (db, .ok { replay := true })
        else (db, .error .conflict)
    | some task =>
        match mergedCoverage row body.checkpointSequence
            (reportOf body.coverage hvalid.coverage) with
        | none => (db, .error .internalError)
        | some merged =>
            let outcome := effectiveOutcome body body.counts merged
            let task := { task with cursorProposal := body.cursor <|> task.cursorProposal }
            ({ scan := recordRulepack (mergeScanCounts db.scan body.counts) body.rulepackVersion
               task := completeTask task outcome.1 outcome.2 merged },
              .ok { fetchTasksCreated :=
                if db.task.kind = .discovery then body.taskSpecs.length else 0 })
  else (db, .error .unprocessable)

theorem submitResults_eq_locked (db : Db χ ρ) (engine : EngineId) (body : ResultsSubmission κ ρ) :
    submitResults db engine body =
      if body.Valid then
        match resultsRefusal db engine body with
        | some refusal => (db, .error refusal)
        | none => lockedResults db.task db engine body
      else (db, .error .unprocessable) := by
  unfold submitResults lockedResults
  by_cases hvalid : body.Valid
  · simp only [hvalid, dif_pos, if_true]
    cases resultsRefusal db engine body with
    | some refusal => rfl
    | none =>
        simp only
        cases hclaim : claimResult db.task engine body.idempotencyKey with
        | none => rfl
        | some task =>
            obtain ⟨_, _, rfl⟩ := claimResult_eq_some hclaim
            rfl
  · simp [hvalid]

structure ResultsStored (db db' : Db χ ρ) (engine : EngineId) (body : ResultsSubmission κ ρ) :
    Prop where
  claimed : (claimResult db.task engine body.idempotencyKey).isSome
  leased : db.task.status.Leased
  unreported : db.task.resultKey = none
  status : db'.task.status = .failed ∨ db'.task.status = body.status
  task : db'.task.kind = db.task.kind ∧ db'.task.resultKey = some body.idempotencyKey ∧
    db'.task.checkpointSequence = db.task.checkpointSequence
  scan : db'.scan = recordRulepack (mergeScanCounts db.scan body.counts) body.rulepackVersion

/-- Results are recorded by exactly one submission, or nothing changes. -/
theorem lockedResults_cases (row : ScanTask χ ρ) (db : Db χ ρ) (engine : EngineId)
    (body : ResultsSubmission κ ρ) :
    (ResultsStored db (lockedResults row db engine body).1 engine body ∧
      ∃ n, (lockedResults row db engine body).2 = .ok { fetchTasksCreated := n }) ∨
    ((lockedResults row db engine body).1 = db ∧
      ∀ a, (lockedResults row db engine body).2 = .ok a → a.replay = true) := by
  unfold lockedResults
  by_cases hvalid : body.Valid
  · simp only [hvalid, dif_pos]
    cases hclaim : claimResult db.task engine body.idempotencyKey with
    | none =>
        right
        simp only
        split_ifs
        · exact ⟨rfl, fun a ha => by rw [← Except.ok.inj ha]⟩
        · exact ⟨rfl, fun a ha => by cases ha⟩
    | some task =>
        have hsome : (claimResult db.task engine body.idempotencyKey).isSome := by rw [hclaim]; rfl
        obtain ⟨hleased, hkey, rfl⟩ := claimResult_eq_some hclaim
        simp only
        cases hmerge : mergedCoverage row body.checkpointSequence
            (reportOf body.coverage hvalid.coverage) with
        | none => exact Or.inr ⟨rfl, fun a ha => by cases ha⟩
        | some merged =>
            left
            exact ⟨⟨hsome, hleased, hkey, effectiveOutcome_status body body.counts merged,
              ⟨rfl, rfl, rfl⟩, rfl⟩, _, rfl⟩
  · simp only [hvalid, dif_neg, not_false_eq_true]
    exact Or.inr ⟨by simp, fun a ha => by simp at ha⟩

end IcebergSST
