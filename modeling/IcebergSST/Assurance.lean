import IcebergSST.Library.Machine
import IcebergSST.Manifest
import IcebergSST.PeriodicFull
import IcebergSST.Transactions

/-!
# What a task's stored coverage may lose

`TaskRecord` is one task's rows together with every version they have had: a request
acts on the version it read, and commits over the version that stands. Leases, batches,
results, discarded resume points, cancellation and leases that fail for want of a secret
are transactions of their own, in any order.

The counts of what was scanned, skipped, failed or missed never go down as long as a
request merges onto the coverage that stands, a batch reports on the phase of its task,
and a lease that fails finds nothing to overwrite.
-/

namespace IcebergSST

variable {κ χ ρ : Type}

/-- What `lease_task` writes over a claimed task whose secrets cannot be read. -/
def leaseFailed (db : Db χ ρ) (failure : LeaseFailure) : Db χ ρ :=
  { db with
    task := completeTask db.task .failed (some failure.error)
      (some (failureReport db.task.kind failure.reason)) }

theorem failLease_eq (db : Db χ ρ) (engine : EngineId) (failure : LeaseFailure) :
    failLease db engine failure = (claimTask db engine).map (leaseFailed · failure) := rfl

structure TaskRecord (κ χ ρ : Type) where
  db : Db χ ρ
  /-- Every version of the rows, the present one last. -/
  versions : List (Db χ ρ)
  /-- The batches ingested. -/
  batches : List (ProgressSubmission κ χ) := []

inductive RecordAction (κ χ ρ : Type)
  | lease (engine : EngineId)
  | leaseFails (read : ℕ) (failure : LeaseFailure)
  | discard (read : ℕ)
  | progress (read : ℕ) (engine : EngineId) (body : ProgressSubmission κ χ)
  | results (read : ℕ) (engine : EngineId) (body : ResultsSubmission κ ρ)
  | renew
  | reclaim
  | cancel
  | otherReport (counts : Counts) (rulepackVersion : Option String)

namespace TaskRecord

def start (scan : Scan) (id : ℕ) (kind : ScanTaskKind) : TaskRecord κ χ ρ where
  db := { scan, task := { id, kind } }
  versions := [{ scan, task := { id, kind } }]

def commit (w : TaskRecord κ χ ρ) (db : Db χ ρ) : TaskRecord κ χ ρ :=
  { w with db, versions := w.versions ++ [db] }

/-- A batch counts as ingested when its answer is not that of a replay. -/
def takeProgress (w : TaskRecord κ χ ρ) (row : ScanTask χ ρ) (engine : EngineId)
    (body : ProgressSubmission κ χ) : TaskRecord κ χ ρ :=
  let taken := lockedProgress row w.db engine body
  match taken.2 with
  | .ok { replay := false, .. } => { w.commit taken.1 with batches := w.batches ++ [body] }
  | _ => w.commit taken.1

def step (w : TaskRecord κ χ ρ) : RecordAction κ χ ρ → Option (TaskRecord κ χ ρ)
  | .lease engine => (claimTask w.db engine).map w.commit
  | .leaseFails read failure =>
      w.versions[read]?.bind fun seen =>
        if seen.task.status = .leased then some (w.commit (leaseFailed w.db failure)) else none
  | .discard read =>
      w.versions[read]?.bind fun seen =>
        if seen.task.checkpoint.isSome ∧ ¬ checkpointStillValid seen.task seen.scan then
          some (w.commit (discardCheckpoint w.db))
        else none
  | .progress read engine body =>
      w.versions[read]?.bind fun seen =>
        match progressRefusal seen.task engine body with
        | some _ => none
        | none => some (w.takeProgress seen.task engine body)
  | .results read engine body =>
      w.versions[read]?.bind fun seen =>
        match resultsRefusal seen engine body with
        | some _ => none
        | none => some (w.commit (lockedResults seen.task w.db engine body).1)
  | .renew => some (w.commit (renewLease w.db))
  | .reclaim => some (w.commit (reclaimExpiredLease w.db))
  | .cancel => some (w.commit (cancelTask w.db))
  | .otherReport counts version =>
      some (w.commit
        { w.db with scan := recordRulepack (mergeScanCounts w.db.scan counts) version })

def dispositionCounts : List CoverageIndex := [.scanned, .skipped, .failed, .scopeGaps]

def stored (w : TaskRecord κ χ ρ) : Totals := storedTotals w.db.task.coverage

def ingested (w : TaskRecord κ χ ρ) : Totals := (w.batches.map ProgressSubmission.totals).sum

/-- No coverage was stored between the version a request read and the present one. -/
def BaseStands (w : TaskRecord κ χ ρ) (read : ℕ) : Prop :=
  ∀ seen ∈ w.versions[read]?, storedTaskReport seen.task = storedTaskReport w.db.task

/-- The condition under which a step overwrites no disposition. -/
def Keeps (w : TaskRecord κ χ ρ) : RecordAction κ χ ρ → Prop
  | .leaseFails _ _ =>
      w.stored .scanned = 0 ∧ w.stored .skipped = 0 ∧ w.stored .failed = 0 ∧
        w.stored .scopeGaps ≤ 1
  | .progress read _ body => ∀ c ∈ body.coverage, c.phase = .fetch ∧ w.BaseStands read
  | .results read _ _ => w.db.task.status.Leased → w.BaseStands read
  | _ => True

/-- What the rows of a task keep from one version to the next. -/
structure Carries (db db' : Db χ ρ) : Prop where
  kind : db'.task.kind = db.task.kind
  terminal : db.task.status.Terminal → db'.task.status.Terminal
  fresh : (¬ db.task.status.Terminal → db.task.checkpointSequence = 0 → db.task.coverage = none) →
    ¬ db'.task.status.Terminal → db'.task.checkpointSequence = 0 → db'.task.coverage = none
  phase : (∀ r ∈ db.task.coverage, r.payload.phase = db.task.kind) →
    ∀ r ∈ db'.task.coverage, r.payload.phase = db'.task.kind
  counts : ∀ i ∈ dispositionCounts,
    storedTotals db.task.coverage i ≤ storedTotals db'.task.coverage i

theorem Carries.of_rows {db db' : Db χ ρ} (hkind : db'.task.kind = db.task.kind)
    (hcov : db'.task.coverage = db.task.coverage)
    (hseq : db'.task.checkpointSequence = db.task.checkpointSequence)
    (hstatus : db'.task.status.Terminal = db.task.status.Terminal) : Carries db db' where
  kind := hkind
  terminal := by
    intro h
    rwa [hstatus]
  fresh := by
    intro h hlive hzero
    rw [hstatus] at hlive
    rw [hcov]
    exact h hlive (hseq ▸ hzero)
  phase := by
    rw [hcov, hkind]
    exact id
  counts := by
    rw [hcov]
    exact fun _ _ => le_rfl

theorem Carries.refl (db : Db χ ρ) : Carries db db := of_rows rfl rfl rfl rfl

theorem Carries.of_terminal {db db' : Db χ ρ} (hkind : db'.task.kind = db.task.kind)
    (hterm : db'.task.status.Terminal)
    (hphase : (∀ r ∈ db.task.coverage, r.payload.phase = db.task.kind) →
      ∀ r ∈ db'.task.coverage, r.payload.phase = db'.task.kind)
    (hcounts : ∀ i ∈ dispositionCounts,
      storedTotals db.task.coverage i ≤ storedTotals db'.task.coverage i) : Carries db db' where
  kind := hkind
  terminal := fun _ => hterm
  fresh := fun _ hlive => absurd hterm hlive
  phase := hphase
  counts := hcounts

theorem le_storedTotals_merge {existing : Option TaskCoverageReport}
    {delta merged : TaskCoverageReport} (h : mergeTaskReport existing delta = some merged) :
    storedTotals existing ≤ storedTotals (some merged) := by
  rw [storedTotals_mergeTaskReport h]
  exact le_add_of_nonneg_right delta.totals_nonneg

theorem Carries.claim {db db' : Db χ ρ} {engine : EngineId} (h : claimTask db engine = some db') :
    Carries db db' := by
  unfold claimTask at h
  split_ifs at h with hqueued
  obtain rfl := Option.some.inj h
  refine of_rows rfl rfl rfl ?_
  rw [hqueued]
  rfl

theorem Carries.renew (db : Db χ ρ) : Carries db (renewLease db) := by
  unfold renewLease
  split_ifs with hleased
  · refine of_rows rfl rfl rfl ?_
    rw [ScanTaskStatus.not_terminal_of_leased hleased]
    rfl
  · exact refl db

theorem Carries.reclaim (db : Db χ ρ) : Carries db (reclaimExpiredLease db) := by
  unfold reclaimExpiredLease
  split_ifs with hleased
  · refine of_rows rfl rfl rfl ?_
    rw [ScanTaskStatus.not_terminal_of_leased hleased]
    rfl
  · exact refl db

theorem Carries.cancel {db : Db χ ρ}
    (hphase : ∀ r ∈ db.task.coverage, r.payload.phase = db.task.kind) :
    Carries db (cancelTask db) := by
  unfold cancelTask
  split_ifs with hterm
  · exact refl db
  · cases hc : cancelledReport db.task with
    | none =>
        refine of_terminal rfl rfl ?_ ?_
        · intro hp
          exact hp
        · intro i _
          exact le_rfl
    | some merged =>
        refine of_terminal rfl rfl ?_ ?_
        · intro _ r hr
          obtain rfl : merged = r := Option.some.inj hr
          exact mergeTaskReport_phase hc
        · intro i _
          have hle := le_storedTotals_merge hc i
          rw [storedTaskReport_eq hphase] at hle
          exact hle

theorem Carries.leaseFailed {db : Db χ ρ} {failure : LeaseFailure}
    (hscanned : storedTotals db.task.coverage .scanned = 0)
    (hskipped : storedTotals db.task.coverage .skipped = 0)
    (hfailed : storedTotals db.task.coverage .failed = 0)
    (hgaps : storedTotals db.task.coverage .scopeGaps ≤ 1) :
    Carries db (leaseFailed db failure) := by
  refine of_terminal rfl rfl ?_ ?_
  · intro _ r hr
    obtain rfl := Option.some.inj hr
    rfl
  · intro i hi
    simp only [dispositionCounts, List.mem_cons, List.not_mem_nil, or_false] at hi
    rcases hi with rfl | rfl | rfl | rfl
    · exact hscanned.le
    · exact hskipped.le
    · exact hfailed.le
    · exact hgaps

theorem resultsRefusal_eq_none {db : Db χ ρ} {engine : EngineId} {body : ResultsSubmission κ ρ}
    (h : resultsRefusal db engine body = none) :
    (body.status = .completed ∨ body.status = .failed) ∧
      (∀ c ∈ body.coverage, c.phase = db.task.kind) ∧
      body.checkpointSequence = db.task.checkpointSequence := by
  unfold resultsRefusal at h
  split_ifs at h with _ hstatus hphase _ _ hseq
  refine ⟨?_, ?_, not_not.1 hseq⟩
  · by_contra hneither
    exact hstatus (not_or.1 hneither)
  · intro c hc
    rw [Option.mem_def] at hc
    simpa [hc] using hphase

theorem lockedResults_coverage (row : ScanTask χ ρ) (db : Db χ ρ) (engine : EngineId)
    (body : ResultsSubmission κ ρ) :
    (lockedResults row db engine body).1 = db ∨
      ∃ delta merged, body.coverage = delta.map TaskCoverageReport.payload ∧
        mergedCoverage row body.checkpointSequence delta = some merged ∧
        db.task.status.Leased ∧
        (lockedResults row db engine body).1.task.kind = db.task.kind ∧
        (lockedResults row db engine body).1.task.status =
          (effectiveOutcome body body.counts merged).1 ∧
        (lockedResults row db engine body).1.task.coverage = (merged <|> db.task.coverage) := by
  unfold lockedResults
  by_cases hvalid : body.Valid
  · simp only [hvalid, dif_pos]
    cases hclaim : claimResult db.task engine body.idempotencyKey with
    | none =>
        left
        simp only
        split_ifs <;> rfl
    | some task =>
        obtain ⟨hleased, _, rfl⟩ := claimResult_eq_some hclaim
        simp only
        cases hmerge : mergedCoverage row body.checkpointSequence
            (reportOf body.coverage hvalid.coverage) with
        | none => exact Or.inl rfl
        | some merged =>
            right
            exact ⟨_, merged, (reportOf_map_payload _ _).symm, hmerge, hleased, rfl, rfl, rfl⟩
  · simp [hvalid]

theorem Carries.results {seen db : Db χ ρ} {engine : EngineId} {body : ResultsSubmission κ ρ}
    (hphase : ∀ r ∈ db.task.coverage, r.payload.phase = db.task.kind)
    (hkind : seen.task.kind = db.task.kind)
    (hfresh : seen.task.checkpointSequence = 0 → db.task.status.Leased → seen.task.coverage = none)
    (hbase : db.task.status.Leased → storedTaskReport seen.task = storedTaskReport db.task)
    (hrefusal : resultsRefusal seen engine body = none) :
    Carries db (lockedResults seen.task db engine body).1 := by
  obtain ⟨hstatus, hbody, hseq⟩ := resultsRefusal_eq_none hrefusal
  rcases lockedResults_coverage seen.task db engine body with heq | ⟨delta, merged, hdelta, hmerged,
    hleased, hkind', hstatus', hcov'⟩
  · rw [heq]
    exact refl db
  · have hstands := hbase hleased
    rw [storedTaskReport_eq hphase] at hstands
    have hdphase : ∀ r ∈ delta, r.payload.phase = db.task.kind := by
      intro r hr
      rw [Option.mem_def] at hr
      rw [← hkind]
      apply hbody
      rw [hdelta, hr]
      rfl
    -- what is stored is what stood, or what stood with the delta on it
    have hcases : (lockedResults seen.task db engine body).1.task.coverage = db.task.coverage ∨
        ∃ r r', delta = some r ∧
          (lockedResults seen.task db engine body).1.task.coverage = some r' ∧
          mergeTaskReport db.task.coverage r = some r' := by
      unfold mergedCoverage at hmerged
      split_ifs at hmerged with hpos
      · cases delta with
        | none =>
            obtain rfl := Option.some.inj hmerged
            left
            rw [hcov', hstands]
            cases db.task.coverage <;> rfl
        | some r =>
            obtain ⟨r', hr', rfl⟩ := Option.map_eq_some_iff.1 hmerged
            right
            exact ⟨r, r', rfl, hcov', hstands ▸ hr'⟩
      · obtain rfl := Option.some.inj hmerged
        have hnone : db.task.coverage = none := by
          rw [← hstands]
          unfold storedTaskReport
          rw [hfresh (by omega) hleased]
          rfl
        cases delta with
        | none => exact Or.inl hcov'
        | some r => exact Or.inr ⟨r, r, rfl, hcov', by rw [hnone]; rfl⟩
    refine of_terminal hkind' ?_ ?_ ?_
    · rw [hstatus']
      exact (effectiveOutcome_ne_cancelled _ _ hstatus).1
    · intro _ r' hr'
      rw [hkind']
      rcases hcases with hsame | ⟨r, r'', hr, hnew, hmerge⟩
      · exact hphase r' (hsame ▸ hr')
      · rw [hnew] at hr'
        obtain rfl := Option.some.inj hr'
        rw [mergeTaskReport_phase hmerge]
        exact hdphase r hr
    · intro i _
      rcases hcases with hsame | ⟨r, r', _, hnew, hmerge⟩
      · rw [hsame]
      · rw [hnew]
        exact le_storedTotals_merge hmerge i

theorem Carries.batch {seen db db' : Db χ ρ} {engine : EngineId}
    {body : ProgressSubmission κ χ} (h : BatchStored seen.task db db' engine body)
    (hphase : ∀ r ∈ db.task.coverage, r.payload.phase = db.task.kind)
    (hkind : db.task.kind = .fetch)
    (hbase : ∀ c ∈ body.coverage,
      c.phase = .fetch ∧ storedTaskReport seen.task = storedTaskReport db.task) :
    Carries db db' ∧
      storedTotals db'.task.coverage = storedTotals db.task.coverage + body.totals := by
  obtain ⟨coverage, htask, hcov⟩ := h.task
  have hlive := ScanTaskStatus.not_terminal_of_leased h.leased
  have hadds : storedTotals coverage = storedTotals db.task.coverage + body.totals := by
    rcases hcov with ⟨hbody, rfl⟩ | ⟨delta, merged, hbody, rfl, hmerge⟩
    · rw [ProgressSubmission.totals, hbody]
      exact (add_zero _).symm
    · rw [(hbase _ hbody).2, storedTaskReport_eq hphase] at hmerge
      rw [ProgressSubmission.totals, hbody]
      exact storedTotals_mergeTaskReport hmerge
  have hle : storedTotals db.task.coverage ≤ storedTotals coverage := by
    rcases hcov with ⟨_, rfl⟩ | ⟨delta, merged, hbody, rfl, hmerge⟩
    · exact le_rfl
    · rw [(hbase _ hbody).2, storedTaskReport_eq hphase] at hmerge
      exact le_storedTotals_merge hmerge
  have hseq := h.sequence
  obtain ⟨scan', task'⟩ := db'
  obtain rfl : task' = _ := htask
  refine ⟨⟨rfl, ?_, ?_, ?_, fun i _ => hle i⟩, hadds⟩
  · intro hterm
    rw [hlive] at hterm
    cases hterm
  · intro _ _ hzero
    change body.sequence = 0 at hzero
    omega
  · intro _ r hr
    change coverage = some r at hr
    change r.payload.phase = db.task.kind
    rcases hcov with ⟨_, rfl⟩ | ⟨delta, merged, hbody, rfl, hmerge⟩
    · exact hphase r hr
    · obtain rfl := Option.some.inj hr
      rw [mergeTaskReport_phase hmerge, hkind]
      exact (hbase _ hbody).1

structure Sound (w : TaskRecord κ χ ρ) : Prop where
  current : w.db ∈ w.versions
  kind : ∀ seen ∈ w.versions, seen.task.kind = w.db.task.kind
  terminal : ∀ seen ∈ w.versions, seen.task.status.Terminal → w.db.task.status.Terminal
  /-- A task that is not over has coverage only from its batches. -/
  fresh : ∀ seen ∈ w.versions, ¬ seen.task.status.Terminal → seen.task.checkpointSequence = 0 →
    seen.task.coverage = none
  phase : ∀ r ∈ w.db.task.coverage, r.payload.phase = w.db.task.kind
  ingested : ∀ i ∈ dispositionCounts, w.ingested i ≤ w.stored i

variable {w w' : TaskRecord κ χ ρ}

theorem sound_start (scan : Scan) (id : ℕ) (kind : ScanTaskKind) :
    (start scan id kind : TaskRecord κ χ ρ).Sound where
  current := List.mem_singleton_self _
  kind := by
    intro seen hseen
    rw [List.mem_singleton.1 hseen]
    rfl
  terminal := by
    intro seen hseen hterm
    rwa [List.mem_singleton.1 hseen] at hterm
  fresh := by
    intro seen hseen _ _
    rw [List.mem_singleton.1 hseen]
  phase := by
    intro r hr
    cases hr
  ingested := fun _ _ => le_rfl

theorem Sound.commit (hs : w.Sound) {db : Db χ ρ} (hc : Carries w.db db)
    {batches : List (ProgressSubmission κ χ)}
    (hbatches : ∀ i ∈ dispositionCounts,
      (batches.map ProgressSubmission.totals).sum i ≤ storedTotals db.task.coverage i) :
    ({ w.commit db with batches } : TaskRecord κ χ ρ).Sound where
  current := List.mem_append_right _ (List.mem_singleton_self db)
  kind := by
    intro seen hseen
    rcases List.mem_append.1 hseen with hseen | hseen
    · exact (hs.kind seen hseen).trans hc.kind.symm
    · rw [List.mem_singleton.1 hseen]
      rfl
  terminal := by
    intro seen hseen hterm
    rcases List.mem_append.1 hseen with hseen | hseen
    · exact hc.terminal (hs.terminal seen hseen hterm)
    · rwa [List.mem_singleton.1 hseen] at hterm
  fresh := by
    intro seen hseen
    rcases List.mem_append.1 hseen with hseen | hseen
    · exact hs.fresh seen hseen
    · rw [List.mem_singleton.1 hseen]
      exact hc.fresh (hs.fresh w.db hs.current)
  phase := hc.phase hs.phase
  ingested := hbatches

theorem Sound.commit_rows (hs : w.Sound) {db : Db χ ρ} (hc : Carries w.db db) :
    (w.commit db).Sound :=
  hs.commit hc fun i hi => (hs.ingested i hi).trans (hc.counts i hi)

/-- A version that is not over while the task is leased has no report without a batch. -/
theorem Sound.fresh_of_leased (hs : w.Sound) {seen : Db χ ρ} (hseen : seen ∈ w.versions)
    (hzero : seen.task.checkpointSequence = 0) (hleased : w.db.task.status.Leased) :
    seen.task.coverage = none := by
  apply hs.fresh seen hseen _ hzero
  intro hterm
  have hover := hs.terminal seen hseen hterm
  rw [ScanTaskStatus.not_terminal_of_leased hleased] at hover
  cases hover

theorem Sound.takeProgress (hs : w.Sound) {seen : Db χ ρ} (hseen : seen ∈ w.versions)
    {engine : EngineId} {body : ProgressSubmission κ χ}
    (hrefusal : progressRefusal seen.task engine body = none)
    (hbase : ∀ c ∈ body.coverage,
      c.phase = .fetch ∧ storedTaskReport seen.task = storedTaskReport w.db.task) :
    Carries w.db (w.takeProgress seen.task engine body).db ∧
      (w.takeProgress seen.task engine body).Sound := by
  have hkind : w.db.task.kind = .fetch := by
    rw [← hs.kind seen hseen]
    unfold progressRefusal at hrefusal
    split_ifs at hrefusal with _ _ hfetch
    exact not_not.1 hfetch
  rcases lockedProgress_cases seen.task w.db engine body with ⟨hstored, hanswer⟩ | ⟨hsame, hanswer⟩
  · have htake : w.takeProgress seen.task engine body =
        { w.commit (lockedProgress seen.task w.db engine body).1 with
          batches := w.batches ++ [body] } := by
      simp only [TaskRecord.takeProgress, hanswer]
    obtain ⟨hc, hadds⟩ := Carries.batch hstored hs.phase hkind hbase
    rw [htake]
    refine ⟨hc, hs.commit hc fun i hi => ?_⟩
    rw [hadds, List.map_append, List.sum_append, Pi.add_apply, Pi.add_apply]
    have hsum : (w.batches.map ProgressSubmission.totals).sum i ≤
        storedTotals w.db.task.coverage i := hs.ingested i hi
    simp only [List.map_singleton, List.sum_singleton]
    omega
  · have htake : w.takeProgress seen.task engine body = w.commit w.db := by
      simp only [TaskRecord.takeProgress, hsame]
      cases hout : (lockedProgress seen.task w.db engine body).2 with
      | error _ => rfl
      | ok a => rw [(hanswer a hout).1]
    rw [htake]
    exact ⟨.refl _, hs.commit_rows (.refl _)⟩

/-- A batch is committed from a version of the row that does not refuse it. -/
theorem step_progress {read : ℕ} {engine : EngineId} {body : ProgressSubmission κ χ}
    (h : w.step (.progress read engine body) = some w') :
    ∃ seen, w.versions[read]? = some seen ∧ progressRefusal seen.task engine body = none ∧
      w' = w.takeProgress seen.task engine body := by
  obtain ⟨seen, hread, hcommit⟩ := Option.bind_eq_some_iff.1 h
  cases hrefusal : progressRefusal seen.task engine body with
  | some _ =>
      rw [hrefusal] at hcommit
      cases hcommit
  | none =>
      rw [hrefusal] at hcommit
      exact ⟨seen, hread, hrefusal, (Option.some.inj hcommit).symm⟩

theorem step_results {read : ℕ} {engine : EngineId} {body : ResultsSubmission κ ρ}
    (h : w.step (.results read engine body) = some w') :
    ∃ seen, w.versions[read]? = some seen ∧ resultsRefusal seen engine body = none ∧
      w' = w.commit (lockedResults seen.task w.db engine body).1 := by
  obtain ⟨seen, hread, hcommit⟩ := Option.bind_eq_some_iff.1 h
  cases hrefusal : resultsRefusal seen engine body with
  | some _ =>
      rw [hrefusal] at hcommit
      cases hcommit
  | none =>
      rw [hrefusal] at hcommit
      exact ⟨seen, hread, hrefusal, (Option.some.inj hcommit).symm⟩

theorem Sound.step (hs : w.Sound) {a : RecordAction κ χ ρ} (ha : w.Keeps a)
    (hstep : w.step a = some w') : Carries w.db w'.db ∧ w'.Sound := by
  cases a with
  | lease engine =>
      obtain ⟨db, hclaim, rfl⟩ := Option.map_eq_some_iff.1 hstep
      exact ⟨.claim hclaim, hs.commit_rows (.claim hclaim)⟩
  | leaseFails read failure =>
      obtain ⟨seen, _, hcommit⟩ := Option.bind_eq_some_iff.1 hstep
      split_ifs at hcommit
      obtain rfl := Option.some.inj hcommit
      obtain ⟨hscanned, hskipped, hfailed, hgaps⟩ := ha
      have hc : Carries w.db (IcebergSST.leaseFailed w.db failure) :=
        .leaseFailed hscanned hskipped hfailed hgaps
      exact ⟨hc, hs.commit_rows hc⟩
  | discard read =>
      obtain ⟨seen, _, hcommit⟩ := Option.bind_eq_some_iff.1 hstep
      split_ifs at hcommit
      obtain rfl := Option.some.inj hcommit
      have hc : Carries w.db (discardCheckpoint w.db) := .of_rows rfl rfl rfl rfl
      exact ⟨hc, hs.commit_rows hc⟩
  | progress read engine body =>
      obtain ⟨seen, hread, hrefusal, rfl⟩ := step_progress hstep
      exact hs.takeProgress (List.mem_of_getElem? hread) hrefusal
        fun c hb => ⟨(ha c hb).1, (ha c hb).2 seen hread⟩
  | results read engine body =>
      obtain ⟨seen, hread, hrefusal, rfl⟩ := step_results hstep
      have hseen := List.mem_of_getElem? hread
      have hc := Carries.results hs.phase (hs.kind seen hseen) (hs.fresh_of_leased hseen)
        (fun hleased => ha hleased seen hread) hrefusal
      exact ⟨hc, hs.commit_rows hc⟩
  | renew =>
      obtain rfl := Option.some.inj hstep
      exact ⟨.renew _, hs.commit_rows (.renew _)⟩
  | reclaim =>
      obtain rfl := Option.some.inj hstep
      exact ⟨.reclaim _, hs.commit_rows (.reclaim _)⟩
  | cancel =>
      obtain rfl := Option.some.inj hstep
      exact ⟨.cancel hs.phase, hs.commit_rows (.cancel hs.phase)⟩
  | otherReport counts version =>
      obtain rfl := Option.some.inj hstep
      have hc : Carries w.db
          { w.db with scan := recordRulepack (mergeScanCounts w.db.scan counts) version } :=
        .of_rows rfl rfl rfl rfl
      exact ⟨hc, hs.commit_rows hc⟩

def IsNew (w : TaskRecord κ χ ρ) : Prop := ∃ scan id kind, w = start scan id kind

theorem sound_of_reachable (hw : Machine.Reachable step Keeps IsNew w) : w.Sound := by
  apply hw.invariant
  · rintro w ⟨scan, id, kind, rfl⟩
    exact sound_start scan id kind
  · intro w a w' hs ha hstep
    exact (hs.step ha hstep).2

/-- In every run whose steps overwrite nothing, no disposition is lost: not from one
version of the rows to the next, and not in the manifest of any scan with the task. -/
theorem stored_assurance_is_monotone (hw : Machine.Reachable step Keeps IsNew w)
    {a : RecordAction κ χ ρ} (ha : w.Keeps a) (hstep : w.step a = some w') :
    (∀ i ∈ dispositionCounts, w.stored i ≤ w'.stored i) ∧
      ∀ status tasks, w'.db.task ∈ tasks → ∀ i ∈ dispositionCounts,
        w'.ingested i ≤ (buildManifest status tasks).totals i := by
  obtain ⟨hc, hs⟩ := (sound_of_reachable hw).step ha hstep
  refine ⟨hc.counts, fun status tasks hmem i hi => (hs.ingested i hi).trans ?_⟩
  apply le_trans _ (manifestShare_le hmem status i)
  unfold manifestShare stored
  rw [storedTaskReport_eq hs.phase]
  cases w'.db.task.coverage with
  | none => exact scopeGapWeight_nonneg _ i
  | some r => exact le_rfl

instance : DecidableEq TaskCoverageReport := fun r r' =>
  decidable_of_iff (r.payload = r'.payload) (by cases r; cases r'; simp)

instance (w : TaskRecord κ χ ρ) (read : ℕ) : Decidable (w.BaseStands read) :=
  inferInstanceAs (Decidable (∀ seen ∈ w.versions[read]?, _))

instance (w : TaskRecord κ χ ρ) (a : RecordAction κ χ ρ) : Decidable (w.Keeps a) :=
  match a with
  | .leaseFails _ _ => inferInstanceAs (Decidable (_ ∧ _))
  | .progress _ _ body => inferInstanceAs (Decidable (∀ c ∈ body.coverage, _))
  | .results _ _ _ => inferInstanceAs (Decidable (_ → _))
  | .lease _ | .discard _ | .renew | .reclaim | .cancel | .otherReport _ _ => .isTrue trivial

def oneRead : CoveragePayload := SourceWorld.plainCoverage .fetch 1 0

/-- An engine has a batch taken and dies, and another leases the task. -/
def batchThenReclaim : List (RecordAction ℕ ℕ Unit) :=
  [.lease 1, .progress 1 1 ⟨1, 1, [], 0, some oneRead, none⟩, .reclaim, .lease 2]

def resumedResults : ResultsSubmission ℕ Unit where
  idempotencyKey := ⟨0, 2⟩
  status := .completed
  checkpointSequence := 1
  coverage := some oneRead

/-- The second engine completes the task. -/
theorem stored_assurance_is_monotone_over_a_resumed_task : ∃ w w' : TaskRecord ℕ ℕ Unit,
    w.stored .scanned = 1 ∧ w'.stored .scanned = 2 ∧
      (∀ i ∈ dispositionCounts, w.stored i ≤ w'.stored i) ∧
      ∀ status tasks, w'.db.task ∈ tasks → ∀ i ∈ dispositionCounts,
        w'.ingested i ≤ (buildManifest status tasks).totals i := by
  have hrun : (Machine.run step Keeps (start {} 0 .fetch) batchThenReclaim).any
      (fun w => decide (w.stored .scanned = 1 ∧ w.Keeps (.results 4 2 resumedResults)) &&
        (w.step (.results 4 2 resumedResults)).any (fun w' => w'.stored .scanned = 2)) := by
    decide
  obtain ⟨w, hw, h⟩ := (Option.any_eq_true _ _).1 hrun
  obtain ⟨hnow, hnext⟩ := Bool.and_eq_true_iff.1 h
  obtain ⟨hstored, hkeeps⟩ := of_decide_eq_true hnow
  obtain ⟨w', hstep, hstored'⟩ := (Option.any_eq_true _ _).1 hnext
  have hreach : Machine.Reachable step Keeps IsNew (start {} 0 .fetch : TaskRecord ℕ ℕ Unit) :=
    .start ⟨{}, 0, .fetch, rfl⟩
  exact ⟨w, w', hstored, of_decide_eq_true hstored',
    stored_assurance_is_monotone (hreach.run hw) hkeeps hstep⟩

/-- The credential cannot be read when the second engine leases, and what the first one
had reported is gone. -/
theorem stored_assurance_can_be_overwritten : ∃ (w w' : TaskRecord ℕ ℕ Unit)
    (a : RecordAction ℕ ℕ Unit), Machine.Reachable step (fun _ _ => True) IsNew w ∧
      w.step a = some w' ∧ w'.stored .scanned < w.stored .scanned ∧
      (buildManifest .failed [w'.db.task]).totals .scanned < w'.ingested .scanned := by
  have hrun : (Machine.run step (fun _ _ => True) (start {} 0 .fetch) batchThenReclaim).any
      (fun w => (w.step (.leaseFails 4 .credential)).any (fun w' =>
        w'.stored .scanned < w.stored .scanned ∧
          (buildManifest .failed [w'.db.task]).totals .scanned < w'.ingested .scanned)) := by
    decide
  obtain ⟨w, hw, h⟩ := (Option.any_eq_true _ _).1 hrun
  obtain ⟨w', hstep, hlost⟩ := (Option.any_eq_true _ _).1 h
  have hreach : Machine.Reachable step (fun _ _ => True) IsNew
      (start {} 0 .fetch : TaskRecord ℕ ℕ Unit) := .start ⟨{}, 0, .fetch, rfl⟩
  obtain ⟨hstored, hmanifest⟩ := of_decide_eq_true hlost
  exact ⟨w, w', _, hreach.run hw, hstep, hstored, hmanifest⟩

end TaskRecord

end IcebergSST
