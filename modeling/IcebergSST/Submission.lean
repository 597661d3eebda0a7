import IcebergSST.History

/-!
# What a submission can do

Each route either leaves the rows as they were or takes the submission, and the two
structures below say everything the second case entails. `request` repeats a route,
so what the route preserves survives the whole retry ladder, and an answer the client
sees is one the route gave to the state the client ends in.
-/

namespace IcebergSST

variable {κ β χ ρ σ α : Type}

theorem request_spec {send : σ → σ × Except Refusal α} {P : σ → Prop}
    (hsend : ∀ s, P s → P (send s).1) (n : ℕ) (fates : List Fate) {s : σ} (hs : P s) :
    P (request send n fates s).1 ∧
      ∀ a, (request send n fates s).2 = .ok a →
        ∃ s', P s' ∧ send s' = ((request send n fates s).1, .ok a) := by
  induction n generalizing fates s with
  | zero => exact ⟨hs, fun a ha => by cases ha⟩
  | succ n ih =>
      cases fates with
      | nil => exact ⟨hs, fun a ha => by cases ha⟩
      | cons fate fates =>
          cases fate with
          | requestLost => exact ih fates hs
          | responseLost => exact ih fates (hsend s hs)
          | rejected => exact ⟨hs, fun a ha => by cases ha⟩
          | answered =>
              have hP := hsend s hs
              cases hout : send s with
              | mk s' answer =>
                  rw [hout] at hP
                  cases answer with
                  | ok a =>
                      simp only [request, hout]
                      refine ⟨hP, fun a' ha' => ⟨s, hs, ?_⟩⟩
                      obtain rfl := Except.ok.inj ha'
                      exact hout
                  | error refusal =>
                      cases refusal with
                      | internalError => simpa only [request, hout] using ih fates hP
                      | _ =>
                          simp only [request, hout]
                          exact ⟨hP, fun a ha => by cases ha⟩

/-- How the coverage column changes with one batch. -/
def BatchCoverage (task : ScanTask χ ρ) (body : ProgressSubmission κ χ)
    (coverage : Option TaskCoverageReport) : Prop :=
  (body.coverage = none ∧ coverage = task.coverage) ∨
    ∃ delta merged, body.coverage = some delta.payload ∧ coverage = some merged ∧
      mergeTaskReport (storedTaskReport task) delta = some merged

structure BatchTaken (api api' : ApiState κ χ ρ) (engine : EngineId)
    (body : ProgressSubmission κ χ) : Prop where
  engine : api.db.task.engineId = some engine
  kind : api.db.task.kind = .fetch
  leased : api.db.task.status.Leased
  unreported : api.db.task.resultKey = none
  sequence : api.db.task.checkpointSequence + 1 = body.sequence
  batches : api'.batches = api.batches ++ [body]
  results : api'.results = api.results
  scan : api'.db.scan =
    recordRulepack (mergeScanCounts api.db.scan body.counts) body.rulepackVersion
  task : ∃ coverage, BatchCoverage api.db.task body coverage ∧
    api'.db.task = { api.db.task with
      checkpoint := some body.checkpoint
      checkpointSequence := body.sequence
      checkpointContext := ⟨api.db.scan.sourceConfigurationVersion, body.rulepackVersion⟩
      coverage }

theorem reportOf_eq_none {coverage : Option CoveragePayload} {h : ∀ c ∈ coverage, c.Valid}
    (hr : reportOf coverage h = none) : coverage = none := by
  cases coverage with
  | none => rfl
  | some c => cases hr

theorem reportOf_eq_some {coverage : Option CoveragePayload} {h : ∀ c ∈ coverage, c.Valid}
    {r : TaskCoverageReport} (hr : reportOf coverage h = some r) : coverage = some r.payload := by
  cases coverage with
  | none => cases hr
  | some c => rw [← Option.some.inj hr]

theorem advanceCheckpoint_eq_some {task task' : ScanTask χ ρ} {engine : EngineId} {n : ℕ} {c : χ}
    {context : CheckpointContext} (h : advanceCheckpoint task engine n c context = some task') :
    task.engineId = some engine ∧ task.status.Leased ∧ task.resultKey = none ∧
      task.checkpointSequence + 1 = n ∧
      task' = { task with checkpoint := some c, checkpointSequence := n,
                          checkpointContext := context } := by
  unfold advanceCheckpoint at h
  split_ifs at h with hc
  exact ⟨hc.1, hc.2.1, hc.2.2.1, hc.2.2.2, (Option.some.inj h).symm⟩

/-- A batch is either taken whole, or leaves the rows alone; then a cheerful answer is
the counter the task stands at. -/
theorem submitProgress_cases (api : ApiState κ χ ρ) (engine : EngineId)
    (body : ProgressSubmission κ χ) :
    ((api.submitProgress engine body).1 = api ∧
      ∀ a, (api.submitProgress engine body).2 = .ok a →
        a.sequence = api.db.task.checkpointSequence) ∨
    (BatchTaken api (api.submitProgress engine body).1 engine body ∧
      (api.submitProgress engine body).2 = .ok { sequence := body.sequence }) := by
  unfold ApiState.submitProgress submitProgress
  by_cases hvalid : body.Valid
  swap
  · simp [hvalid]
  by_cases hengine : api.db.task.engineId ≠ some engine
  · simp [hvalid, hengine]
  by_cases hkind : api.db.task.kind ≠ .fetch
  · simp [hvalid, hengine, hkind]
  simp only [dif_pos hvalid, if_neg hengine, if_neg hkind]
  cases hadv : advanceCheckpoint api.db.task engine body.sequence body.checkpoint
      ⟨api.db.scan.sourceConfigurationVersion, body.rulepackVersion⟩ with
  | none =>
      by_cases hkey : api.db.task.resultKey ≠ none
      · simp [hkey]
      · simp only [if_neg hkey]
        exact Or.inl ⟨trivial, fun a ha => by rw [← Except.ok.inj ha]⟩
  | some task =>
      obtain ⟨hid, hleased, hkey, hseq, rfl⟩ := advanceCheckpoint_eq_some hadv
      cases hrep : reportOf body.coverage hvalid.coverage with
      | none =>
          refine Or.inr ⟨⟨hid, not_not.1 hkind, hleased, hkey, hseq, rfl, rfl, rfl, ?_⟩, rfl⟩
          exact ⟨_, Or.inl ⟨reportOf_eq_none hrep, rfl⟩, rfl⟩
      | some delta =>
          cases hmerge : mergeTaskReport (storedTaskReport api.db.task) delta with
          | none =>
              have hm : mergeTaskReport (storedTaskReport
                  { api.db.task with
                    checkpoint := some body.checkpoint
                    checkpointSequence := body.sequence
                    checkpointContext :=
                      ⟨api.db.scan.sourceConfigurationVersion, body.rulepackVersion⟩ }) delta =
                  none := hmerge
              simp [hm]
          | some merged =>
              have hm : mergeTaskReport (storedTaskReport
                  { api.db.task with
                    checkpoint := some body.checkpoint
                    checkpointSequence := body.sequence
                    checkpointContext :=
                      ⟨api.db.scan.sourceConfigurationVersion, body.rulepackVersion⟩ }) delta =
                  some merged := hmerge
              simp only [hm]
              refine Or.inr
                ⟨⟨hid, not_not.1 hkind, hleased, hkey, hseq, rfl, rfl, rfl, ?_⟩, trivial⟩
              exact ⟨_, Or.inr ⟨delta, merged, reportOf_eq_some hrep, rfl, hmerge⟩, rfl⟩

structure ResultsTaken (api api' : ApiState κ χ ρ) (engine : EngineId)
    (body : ResultsSubmission κ ρ) : Prop where
  valid : body.Valid
  unrefused : resultsRefusal api.db engine body = none
  leased : api.db.task.status.Leased
  unreported : api.db.task.resultKey = none
  batches : api'.batches = api.batches
  results : api'.results = api.results ++ [body]
  scan : api'.db.scan =
    recordRulepack (mergeScanCounts api.db.scan body.counts) body.rulepackVersion
  task : ∃ delta merged, body.coverage = delta.map TaskCoverageReport.payload ∧
    mergedCoverage api.db.task body.checkpointSequence delta = some merged ∧
    api'.db.task =
      completeTask
        { api.db.task with
          resultKey := some body.idempotencyKey
          cursorProposal := body.cursor <|> api.db.task.cursorProposal }
        (effectiveOutcome body body.counts merged).1 (effectiveOutcome body body.counts merged).2
        merged

theorem ResultsTaken.sequence {api api' : ApiState κ χ ρ} {engine : EngineId}
    {body : ResultsSubmission κ ρ} (h : ResultsTaken api api' engine body) :
    body.checkpointSequence = api.db.task.checkpointSequence := by
  by_contra hne
  have hr := h.unrefused
  unfold resultsRefusal at hr
  split_ifs at hr

theorem claimResult_eq_some {task task' : ScanTask χ ρ} {engine : EngineId} {key : IdempotencyKey}
    (h : claimResult task engine key = some task') :
    task.status.Leased ∧ task.resultKey = none ∧ task' = { task with resultKey := some key } := by
  unfold claimResult at h
  split_ifs at h with hc
  exact ⟨hc.2.1, hc.2.2, (Option.some.inj h).symm⟩

theorem reportOf_map_payload (coverage : Option CoveragePayload) (h : ∀ c ∈ coverage, c.Valid) :
    (reportOf coverage h).map TaskCoverageReport.payload = coverage := by
  cases coverage <;> rfl

theorem submitResults_cases (api : ApiState κ χ ρ) (engine : EngineId)
    (body : ResultsSubmission κ ρ) :
    (api.submitResults engine body).1 = api ∨
      ResultsTaken api (api.submitResults engine body).1 engine body := by
  unfold ApiState.submitResults submitResults
  by_cases hvalid : body.Valid
  swap
  · simp [hvalid]
  simp only [dif_pos hvalid]
  cases hrefusal : resultsRefusal api.db engine body with
  | some refusal => exact Or.inl rfl
  | none =>
      cases hclaim : claimResult api.db.task engine body.idempotencyKey with
      | none =>
          by_cases hkey : api.db.task.resultKey = some body.idempotencyKey
          · simp [hkey]
          · simp [hkey]
      | some task =>
          obtain ⟨hleased, hkey, rfl⟩ := claimResult_eq_some hclaim
          have hcov : mergedCoverage
              { api.db.task with resultKey := some body.idempotencyKey } body.checkpointSequence
              (reportOf body.coverage hvalid.coverage) =
            mergedCoverage api.db.task body.checkpointSequence
              (reportOf body.coverage hvalid.coverage) := rfl
          cases hmerged : mergedCoverage api.db.task body.checkpointSequence
              (reportOf body.coverage hvalid.coverage) with
          | none => simp only [hcov, hmerged, true_or]
          | some merged =>
              simp only [hcov, hmerged]
              exact Or.inr ⟨hvalid, hrefusal, hleased, hkey, rfl, rfl, rfl,
                _, merged, (reportOf_map_payload _ _).symm, hmerged, rfl⟩

/-- The outcome is the one reported, or a failure. -/
theorem effectiveOutcome_status (body : ResultsSubmission κ ρ) (counts : Counts)
    (coverage : Option TaskCoverageReport) :
    (effectiveOutcome body counts coverage).1 = .failed ∨
      (effectiveOutcome body counts coverage).1 = body.status := by
  unfold effectiveOutcome
  dsimp only
  split_ifs <;> first | exact Or.inl rfl | exact Or.inr rfl

theorem effectiveOutcome_completed {body : ResultsSubmission κ ρ} {counts : Counts}
    {r : TaskCoverageReport} (h : (effectiveOutcome body counts (some r)).1 = .completed) :
    r.payload.counts.failed = 0 ∧ r.payload.scope.gaps = 0 := by
  have hstatus : body.status = .completed := by
    rcases effectiveOutcome_status body counts (some r) with hf | hf <;> rw [hf] at h
    · cases h
    · exact h
  by_contra hno
  have hany : (some r).any (fun r => r.payload.counts.failed ≠ 0 || r.payload.scope.gaps ≠ 0) := by
    simp only [Option.any_some, Bool.or_eq_true, decide_eq_true_eq]
    by_contra hboth
    push Not at hboth
    exact hno hboth
  rw [effectiveOutcome, if_pos ⟨hstatus, hany⟩] at h
  cases h

theorem effectiveOutcome_ne_cancelled {body : ResultsSubmission κ ρ} (counts : Counts)
    (coverage : Option TaskCoverageReport) (h : body.status = .completed ∨ body.status = .failed) :
    (effectiveOutcome body counts coverage).1.Terminal = true ∧
      (effectiveOutcome body counts coverage).1 ≠ .cancelled := by
  rcases effectiveOutcome_status body counts coverage with hf | hf <;> rw [hf]
  · exact ⟨rfl, by simp⟩
  · rcases h with h | h <;> rw [h] <;> exact ⟨rfl, by simp⟩

end IcebergSST
