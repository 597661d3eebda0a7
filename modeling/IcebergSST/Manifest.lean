import IcebergSST.Scans

/-!
# The coverage manifest of a scan

`buildManifest` adds up the reports its tasks hold when the scan ends, a task without
one counting as a scope that was not reported. Read as an integer vector, a manifest
is the sum of its tasks' shares, and its state is `complete` exactly when the scan is
completed and every task holds a report with nothing skipped, failed or missed.

The fields that only copy the scan's row are left out.
-/

namespace IcebergSST

variable {χ ρ : Type}

inductive CoverageState
  | complete
  /-- `partial`: something requested was not inspected. -/
  | partly
  | failed
  | cancelled
  deriving DecidableEq, Repr

structure CoverageManifestGap where
  taskId : ℕ
  phase : ScanTaskKind
  gap : CoverageGap

structure CoverageTaskCounts where
  total : ℕ
  completed : ℕ
  failed : ℕ
  cancelled : ℕ
  reported : ℕ
  unreported : ℕ
  deriving DecidableEq, Repr

structure CoverageManifest where
  scanStatus : ScanStatus
  coverageState : CoverageState
  counts : CoverageCounts
  scope : CoverageScope
  reasons : List CoverageReasonCount
  taskCounts : CoverageTaskCounts
  gaps : List CoverageManifestGap
  gapsOmitted : ℤ

def coverageState (status : ScanStatus) (skipped failed scopeGaps : ℤ) (unreported : ℕ) :
    CoverageState :=
  if status = .cancelled then .cancelled
  else if status = .failed then .failed
  else if status = .partly then .partly
  else if skipped ≠ 0 ∨ failed ≠ 0 ∨ scopeGaps ≠ 0 ∨ unreported ≠ 0 then .partly
  else .complete

structure ManifestTally where
  counts : CoverageCounts := ⟨0, 0, 0, 0, 0⟩
  reasons : ReasonKey → ℤ := 0
  gaps : List CoverageManifestGap := []
  gapsOmitted : ℤ := 0
  reported : ℕ := 0
  unreported : ℕ := 0
  discoveryRequested : ℤ := 0
  discoveryRequestedKnown : Bool := true
  scopeDiscovered : ℤ := 0
  scopeGaps : ℤ := 0
  fetchScopeGap : Bool := false

def ManifestTally.add (m : ManifestTally) (task : ScanTask χ ρ) : ManifestTally :=
  match storedTaskReport task with
  | none =>
      { m with
        unreported := m.unreported + 1
        scopeGaps := m.scopeGaps + 1
        gapsOmitted := m.gapsOmitted + 1
        reasons := m.reasons + Pi.single (.scopeGap, .unreported) 1
        discoveryRequestedKnown := m.discoveryRequestedKnown && task.kind ≠ .discovery
        fetchScopeGap := m.fetchScopeGap || task.kind ≠ .discovery }
  | some report =>
      let p := report.payload
      let retained := p.gaps.take (maxCoverageGapReferences - m.gaps.length)
      { counts :=
          { requested := m.counts.requested + p.counts.requested
            discovered := m.counts.discovered + p.counts.discovered
            scanned := m.counts.scanned + p.counts.scanned
            skipped := m.counts.skipped + p.counts.skipped
            failed := m.counts.failed + p.counts.failed }
        reasons := m.reasons + reasonTotal p.reasons
        gaps := m.gaps ++ retained.map (fun gap => ⟨task.id, p.phase, gap⟩)
        gapsOmitted := m.gapsOmitted + p.gapsOmitted + (p.gaps.length - retained.length)
        reported := m.reported + 1
        unreported := m.unreported
        discoveryRequested := m.discoveryRequested +
          if task.kind = .discovery then p.scope.requested.getD 0 else 0
        discoveryRequestedKnown := m.discoveryRequestedKnown &&
          (task.kind ≠ .discovery || p.scope.requested.isSome)
        scopeDiscovered := m.scopeDiscovered + p.scope.discovered
        scopeGaps := m.scopeGaps + p.scope.gaps
        fetchScopeGap := m.fetchScopeGap || (task.kind ≠ .discovery && p.scope.gaps ≠ 0) }

def manifestTally (tasks : List (ScanTask χ ρ)) : ManifestTally := tasks.foldl ManifestTally.add {}

/-- The tasks come in the order of their creation. -/
def buildManifest (status : ScanStatus) (tasks : List (ScanTask χ ρ)) : CoverageManifest :=
  let m := manifestTally tasks
  let requested :=
    if m.discoveryRequestedKnown ∧ ¬ m.fetchScopeGap ∧
        m.discoveryRequested = m.scopeDiscovered + m.scopeGaps then some m.discoveryRequested
    else none
  { scanStatus := status
    coverageState := coverageState status m.counts.skipped m.counts.failed m.scopeGaps m.unreported
    counts := m.counts
    scope := ⟨requested, m.scopeDiscovered, m.scopeGaps⟩
    reasons := reasonEntries m.reasons
    taskCounts :=
      { total := tasks.length
        completed := tasks.countP (·.status = .completed)
        failed := tasks.countP (·.status = .failed)
        cancelled := tasks.countP (·.status = .cancelled)
        reported := m.reported
        unreported := m.unreported }
    gaps := m.gaps
    gapsOmitted := m.gapsOmitted }

def ManifestTally.totals (m : ManifestTally) : Totals
  | .requested => m.counts.requested
  | .discovered => m.counts.discovered
  | .scanned => m.counts.scanned
  | .skipped => m.counts.skipped
  | .failed => m.counts.failed
  | .scopeDiscovered => m.scopeDiscovered
  | .scopeGaps => m.scopeGaps
  | .references => m.gaps.length + m.gapsOmitted
  | .reason k => m.reasons k

def CoverageManifest.totals (m : CoverageManifest) : Totals
  | .requested => m.counts.requested
  | .discovered => m.counts.discovered
  | .scanned => m.counts.scanned
  | .skipped => m.counts.skipped
  | .failed => m.counts.failed
  | .scopeDiscovered => m.scope.discovered
  | .scopeGaps => m.scope.gaps
  | .references => m.gaps.length + m.gapsOmitted
  | .reason k => reasonTotal m.reasons k

/-- What one task adds to a manifest. -/
def manifestShare (task : ScanTask χ ρ) : Totals :=
  (storedTaskReport task).elim (scopeGapWeight .unreported) TaskCoverageReport.totals

theorem TaskCoverageReport.totals_nonneg (r : TaskCoverageReport) : 0 ≤ r.totals := by
  intro i
  have hc := r.valid.counts
  have hs := r.valid.scope
  cases i with
  | requested => exact hc.requested_nonneg
  | discovered => exact hc.discovered_nonneg
  | scanned => exact hc.scanned_nonneg
  | skipped => exact hc.skipped_nonneg
  | failed => exact hc.failed_nonneg
  | scopeDiscovered => exact hs.discovered_nonneg
  | scopeGaps => exact hs.gaps_nonneg
  | references =>
      have hgaps := r.valid.gapsOmitted_nonneg
      change 0 ≤ (r.payload.gaps.length : ℤ) + r.payload.gapsOmitted
      omega
  | reason k => exact reasonTotal_nonneg r.valid.reasons k

theorem scopeGapWeight_nonneg (reason : CoverageReason) : 0 ≤ scopeGapWeight reason := by
  intro i
  simp only [scopeGapWeight, gapWeight, Pi.add_apply, Pi.single_apply, Pi.zero_apply]
  split_ifs <;> omega

theorem manifestShare_nonneg (task : ScanTask χ ρ) : 0 ≤ manifestShare task := by
  unfold manifestShare
  cases storedTaskReport task with
  | none => exact scopeGapWeight_nonneg _
  | some r => exact r.totals_nonneg

theorem ManifestTally.totals_add (m : ManifestTally) (task : ScanTask χ ρ) :
    (m.add task).totals = m.totals + manifestShare task := by
  unfold ManifestTally.add manifestShare
  cases storedTaskReport task with
  | none =>
      funext i
      cases i with
      | reason k =>
          simp [totals, scopeGapWeight, gapWeight, Pi.single_apply]
      | references =>
          simp only [totals, Option.elim_none, scopeGapWeight, gapWeight, Pi.add_apply,
            Pi.single_apply, reduceCtorEq, if_true, if_false]
          ring
      | _ => simp [totals, scopeGapWeight, gapWeight]
  | some r =>
      funext i
      cases i with
      | references =>
          simp only [totals, Option.elim_some, TaskCoverageReport.totals, CoveragePayload.totals,
            Pi.add_apply, List.length_append, List.length_map]
          push_cast
          ring
      | _ => rfl

theorem totals_manifestTally (tasks : List (ScanTask χ ρ)) :
    (manifestTally tasks).totals = (tasks.map manifestShare).sum := by
  have hfold : ∀ m : ManifestTally,
      (tasks.foldl ManifestTally.add m).totals = m.totals + (tasks.map manifestShare).sum := by
    induction tasks with
    | nil => simp
    | cons task tasks ih =>
        intro m
        rw [List.foldl_cons, ih, ManifestTally.totals_add, List.map_cons, List.sum_cons, add_assoc]
  rw [manifestTally, hfold]
  have hzero : (({} : ManifestTally).totals) = 0 := by
    funext i
    cases i <;> rfl
  rw [hzero, zero_add]

theorem manifestShares_nonneg (tasks : List (ScanTask χ ρ)) :
    ∀ share ∈ tasks.map manifestShare, 0 ≤ share := by
  intro share hshare
  obtain ⟨task, -, rfl⟩ := List.mem_map.1 hshare
  exact manifestShare_nonneg task

theorem totals_buildManifest (status : ScanStatus) (tasks : List (ScanTask χ ρ)) :
    (buildManifest status tasks).totals = (tasks.map manifestShare).sum := by
  have htally := totals_manifestTally tasks
  rw [← htally]
  funext i
  cases i with
  | reason k =>
      have hnonneg : 0 ≤ (manifestTally tasks).totals (.reason k) := by
        rw [htally]
        exact List.sum_nonneg (manifestShares_nonneg tasks) (.reason k)
      exact reasonTotal_reasonEntries_of_nonneg hnonneg
  | _ => rfl

/-- No task's share is lost in the sum. -/
theorem manifestShare_le {tasks : List (ScanTask χ ρ)} {task : ScanTask χ ρ} (h : task ∈ tasks)
    (status : ScanStatus) : manifestShare task ≤ (buildManifest status tasks).totals := by
  rw [totals_buildManifest]
  exact List.single_le_sum (manifestShares_nonneg tasks) _ (List.mem_map_of_mem h)

theorem coverageState_complete {status : ScanStatus} {skipped failed scopeGaps : ℤ}
    {unreported : ℕ} (h : coverageState status skipped failed scopeGaps unreported = .complete) :
    skipped = 0 ∧ failed = 0 ∧ scopeGaps = 0 ∧ unreported = 0 := by
  unfold coverageState at h
  split_ifs at h with h₁ h₂ h₃ h₄
  push Not at h₄
  exact h₄

theorem unreported_add (m : ManifestTally) (task : ScanTask χ ρ) :
    (m.add task).unreported =
      m.unreported + if (storedTaskReport task).isNone then 1 else 0 := by
  unfold ManifestTally.add
  cases storedTaskReport task <;> rfl

theorem unreported_manifestTally (tasks : List (ScanTask χ ρ)) :
    (manifestTally tasks).unreported = tasks.countP (fun t => (storedTaskReport t).isNone) := by
  have hfold : ∀ m : ManifestTally, (tasks.foldl ManifestTally.add m).unreported =
      m.unreported + tasks.countP (fun t => (storedTaskReport t).isNone) := by
    induction tasks with
    | nil => simp
    | cons task tasks ih =>
        intro m
        rw [List.foldl_cons, ih, unreported_add, List.countP_cons]
        omega
  rw [manifestTally, hfold]
  exact Nat.zero_add _

/-- A manifest is complete only over reports with nothing skipped, failed or missed. -/
theorem clean_of_complete {status : ScanStatus} {tasks : List (ScanTask χ ρ)}
    (h : (buildManifest status tasks).coverageState = .complete) {task : ScanTask χ ρ}
    (hmem : task ∈ tasks) : ∃ r, storedTaskReport task = some r ∧ r.payload.counts.skipped = 0 ∧
      r.payload.counts.failed = 0 ∧ r.payload.scope.gaps = 0 := by
  obtain ⟨hskipped, hfailed, hgaps, hunreported⟩ := coverageState_complete h
  rw [unreported_manifestTally] at hunreported
  cases hr : storedTaskReport task with
  | none =>
      have hnone := List.countP_eq_zero.1 hunreported task hmem
      rw [hr] at hnone
      exact absurd rfl hnone
  | some r =>
      have hle : ∀ i, r.totals i ≤ (buildManifest status tasks).totals i := by
        intro i
        have hshare := manifestShare_le hmem status i
        rwa [manifestShare, hr] at hshare
      have hnonneg := r.totals_nonneg
      refine ⟨r, rfl, ?_, ?_, ?_⟩
      · have hi : r.payload.counts.skipped ≤ (manifestTally tasks).counts.skipped := hle .skipped
        have h0 : 0 ≤ r.payload.counts.skipped := hnonneg .skipped
        omega
      · have hi : r.payload.counts.failed ≤ (manifestTally tasks).counts.failed := hle .failed
        have h0 : 0 ≤ r.payload.counts.failed := hnonneg .failed
        omega
      · have hi : r.payload.scope.gaps ≤ (manifestTally tasks).scopeGaps := hle .scopeGaps
        have h0 : 0 ≤ r.payload.scope.gaps := hnonneg .scopeGaps
        omega

end IcebergSST
