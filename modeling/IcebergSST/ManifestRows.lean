import IcebergSST.Manifest
import IcebergSST.Merging

/-!
# Manifests of arbitrary task rows

`ManifestRow` is a task row as finalization reads it: its stored coverage is whatever
the column holds. `manifestOfRows` sorts the rows, validates what each one stores and
builds the manifest through the constructors, which refuse an inconsistent one.
-/

namespace IcebergSST

/-- The JSON of the coverage column: empty, not of the shape of a report, or a document
whose fields parse and which the validators have yet to judge. -/
inductive StoredCoverage
  | missing
  | malformed
  | document (p : CoveragePayload)

structure ManifestRow where
  createdAt : ℤ
  id : ℕ
  kind : ScanTaskKind
  status : ScanTaskStatus
  coverage : StoredCoverage

/-- `TaskCoverageReport.model_validate`, a refusal counting as no coverage. -/
def StoredCoverage.validated : StoredCoverage → Option TaskCoverageReport
  | .missing => none
  | .malformed => none
  | .document p => TaskCoverageReport.construct p

def ManifestRow.task (row : ManifestRow) : ScanTask Unit Unit where
  id := row.id
  kind := row.kind
  status := row.status
  coverage := row.coverage.validated

/-- `_validated_report`: a report of another phase than the task's counts as none. -/
def ManifestRow.validatedReport (row : ManifestRow) : Option TaskCoverageReport :=
  storedTaskReport row.task

/-- The task rows of a scan; the identifier is their primary key. -/
structure ManifestRows where
  rows : List ManifestRow
  keyed : (rows.map ManifestRow.id).Nodup

/-- `key=lambda task: (task.created_at, str(task.id))` -/
def ManifestRow.le (a b : ManifestRow) : Bool :=
  a.createdAt < b.createdAt || (a.createdAt = b.createdAt && a.id ≤ b.id)

def orderedTasks (rows : List ManifestRow) : List (ScanTask Unit Unit) :=
  (rows.mergeSort ManifestRow.le).map ManifestRow.task

structure CoverageManifest.Valid (m : CoverageManifest) : Prop where
  counts : m.counts.Valid
  scope : m.scope.Valid
  reasons : ∀ e ∈ m.reasons, e.Valid
  gaps_length : m.gaps.length ≤ maxCoverageGapReferences
  gapsOmitted_nonneg : 0 ≤ m.gapsOmitted

instance (m : CoverageManifest) : Decidable m.Valid :=
  decidable_of_iff (m.counts.Valid ∧ m.scope.Valid ∧ (∀ e ∈ m.reasons, e.Valid) ∧
      m.gaps.length ≤ maxCoverageGapReferences ∧ 0 ≤ m.gapsOmitted)
    ⟨fun h => ⟨h.1, h.2.1, h.2.2.1, h.2.2.2.1, h.2.2.2.2⟩,
      fun h => ⟨h.counts, h.scope, h.reasons, h.gaps_length, h.gapsOmitted_nonneg⟩⟩

def CoverageManifest.construct (m : CoverageManifest) : Option CoverageManifest :=
  if m.Valid then some m else none

/-- `build_manifest`; `none` is the `ValidationError` of an inconsistent manifest. -/
def manifestOfRows (status : ScanStatus) (rows : List ManifestRow) : Option CoverageManifest :=
  CoverageManifest.construct (buildManifest status (orderedTasks rows))

theorem ManifestRow.le_trans (a b c : ManifestRow) : a.le b → b.le c → a.le c := by
  simp only [le, Bool.or_eq_true, Bool.and_eq_true, decide_eq_true_eq]
  omega

theorem ManifestRow.le_total (a b : ManifestRow) : a.le b || b.le a := by
  simp only [le, Bool.or_eq_true, Bool.and_eq_true, decide_eq_true_eq]
  omega

theorem ManifestRow.id_eq_of_le {a b : ManifestRow} (hab : a.le b) (hba : b.le a) :
    a.id = b.id := by
  simp only [le, Bool.or_eq_true, Bool.and_eq_true, decide_eq_true_eq] at hab hba
  omega

/-- The order of the rows decides nothing: they are sorted by a key they do not share. -/
theorem mergeSort_rows {rows rows' : List ManifestRow} (hkeyed : (rows.map ManifestRow.id).Nodup)
    (hperm : rows'.Perm rows) :
    rows'.mergeSort ManifestRow.le = rows.mergeSort ManifestRow.le := by
  have hsorted := fun l : List ManifestRow =>
    List.pairwise_mergeSort ManifestRow.le_trans ManifestRow.le_total l
  have hperm' : (rows'.mergeSort ManifestRow.le).Perm (rows.mergeSort ManifestRow.le) :=
    (List.mergeSort_perm _ _).trans (hperm.trans (List.mergeSort_perm _ _).symm)
  apply List.Perm.eq_of_pairwise _ (hsorted rows') (hsorted rows) hperm'
  intro a b ha hb hab hba
  have ha' : a ∈ rows := hperm.subset ((List.mergeSort_perm _ _).subset ha)
  have hb' : b ∈ rows := (List.mergeSort_perm _ _).subset hb
  exact List.inj_on_of_nodup_map hkeyed ha' hb' (ManifestRow.id_eq_of_le hab hba)

theorem mem_orderedTasks {rows : List ManifestRow} {task : ScanTask Unit Unit} :
    task ∈ orderedTasks rows ↔ ∃ row ∈ rows, row.task = task := by
  simp [orderedTasks]

variable {χ ρ : Type}

theorem reconciled_manifestShare (task : ScanTask χ ρ) : Reconciled (manifestShare task) := by
  unfold manifestShare
  cases storedTaskReport task with
  | none => exact reconciled_scopeGap ⟨.unreported, rfl⟩
  | some r => exact r.reconciled

theorem reconciled_shares (tasks : List (ScanTask χ ρ)) :
    Reconciled (tasks.map manifestShare).sum := by
  induction tasks with
  | nil => exact .zero
  | cons task tasks ih =>
      rw [List.map_cons, List.sum_cons]
      exact (reconciled_manifestShare task).add ih

theorem reconciled_manifestTally (tasks : List (ScanTask χ ρ)) :
    Reconciled (manifestTally tasks).totals := by
  rw [totals_manifestTally]
  exact reconciled_shares tasks

/-- The references of the manifest share one cap, and every one left out is counted. -/
structure ManifestTally.Capped (m : ManifestTally) : Prop where
  gaps : m.gaps.length ≤ maxCoverageGapReferences
  omitted : 0 ≤ m.gapsOmitted

theorem ManifestTally.Capped.add {m : ManifestTally} (h : m.Capped) (task : ScanTask χ ρ) :
    (m.add task).Capped := by
  have hgaps := h.gaps
  have homitted := h.omitted
  unfold ManifestTally.add
  cases storedTaskReport task with
  | none => exact ⟨hgaps, by dsimp only; omega⟩
  | some r =>
      have hr := r.valid.gapsOmitted_nonneg
      have hlen : (r.payload.gaps.take (maxCoverageGapReferences - m.gaps.length)).length ≤
          r.payload.gaps.length := (List.take_sublist _ _).length_le
      constructor
      · simp only [List.length_append, List.length_map, List.length_take]
        omega
      · dsimp only
        omega

theorem capped_manifestTally (tasks : List (ScanTask χ ρ)) : (manifestTally tasks).Capped := by
  have hfold : ∀ m : ManifestTally, m.Capped → (tasks.foldl ManifestTally.add m).Capped := by
    induction tasks with
    | nil => exact fun _ h => h
    | cons task tasks ih => exact fun m h => ih _ (h.add task)
  exact hfold {} ⟨Nat.zero_le _, le_rfl⟩

theorem scanned_manifestTally_nonneg (tasks : List (ScanTask χ ρ)) :
    0 ≤ (manifestTally tasks).counts.scanned := by
  have hsum : (manifestTally tasks).totals .scanned = (tasks.map manifestShare).sum .scanned :=
    congrFun (totals_manifestTally tasks) .scanned
  have hnonneg := List.sum_nonneg (manifestShares_nonneg tasks) .scanned
  exact hnonneg.trans_eq hsum.symm

/-- Whatever the tasks hold, no constructor of the manifest refuses. -/
theorem buildManifest_valid (status : ScanStatus) (tasks : List (ScanTask χ ρ)) :
    (buildManifest status tasks).Valid where
  counts := (reconciled_manifestTally tasks).counts_valid (scanned_manifestTally_nonneg tasks)
  scope := by
    have hm := reconciled_manifestTally tasks
    apply (CoverageScope.valid_iff _).2
    refine ⟨hm.scopeDiscovered, hm.scopeGaps_nonneg, ?_⟩
    simp only [buildManifest]
    split_ifs with h
    · exact Or.inr (by rw [h.2.2])
    · exact Or.inl rfl
  reasons := fun _ he => (reconciled_manifestTally tasks).entries_valid (fun _ => rfl) he
  gaps_length := (capped_manifestTally tasks).gaps
  gapsOmitted_nonneg := (capped_manifestTally tasks).omitted

theorem outcomeTotal_buildManifest (status : ScanStatus) (tasks : List (ScanTask χ ρ))
    (d : CoverageDisposition) :
    outcomeTotal (buildManifest status tasks).reasons d =
      reasonSum (manifestTally tasks).totals d :=
  outcomeTotal_reasonEntries (reconciled_manifestTally tasks).reason_nonneg d

theorem coverageState_complete_iff {status : ScanStatus} {skipped failed scopeGaps : ℤ}
    {unreported : ℕ} : coverageState status skipped failed scopeGaps unreported = .complete ↔
      (status ≠ .cancelled ∧ status ≠ .failed ∧ status ≠ .partly) ∧
        skipped = 0 ∧ failed = 0 ∧ scopeGaps = 0 ∧ unreported = 0 := by
  unfold coverageState
  split_ifs with h₁ h₂ h₃ h₄
  · simp [h₁]
  · simp [h₂]
  · simp [h₃]
  · simp only [false_iff]
    omega
  · simp only [true_iff]
    push Not at h₄
    exact ⟨⟨h₁, h₂, h₃⟩, h₄⟩

theorem unreported_eq_zero_iff (rows : List ManifestRow) :
    (manifestTally (orderedTasks rows)).unreported = 0 ↔
      ∀ row ∈ rows, row.validatedReport.isSome := by
  rw [unreported_manifestTally, List.countP_eq_zero]
  constructor
  · intro h row hrow
    have hnone := h row.task (mem_orderedTasks.2 ⟨row, hrow, rfl⟩)
    rwa [Option.isNone_iff_eq_none, ← ne_eq, ← Option.isSome_iff_ne_none] at hnone
  · intro h task htask
    obtain ⟨row, hrow, rfl⟩ := mem_orderedTasks.1 htask
    have hsome := h row hrow
    rw [Option.isNone_iff_eq_none, ← ne_eq, ← Option.isSome_iff_ne_none]
    exact hsome

theorem sum_orderedTasks (rows : List ManifestRow) :
    ((orderedTasks rows).map manifestShare).sum =
      (rows.map fun row => manifestShare row.task).sum := by
  rw [orderedTasks, List.map_map]
  exact ((List.mergeSort_perm rows ManifestRow.le).map _).sum_eq

/-- Every scan has a manifest, whatever its task rows store and in whatever order they
come; its totals are the sums of what the rows report and agree with each other, and its
state agrees with them. -/
theorem manifestOfRows_consistent (status : ScanStatus) (table : ManifestRows) :
    ∃ m, manifestOfRows status table.rows = some m ∧
      (∀ rows, rows.Perm table.rows → manifestOfRows status rows = some m) ∧
      m.totals = (table.rows.map fun row => manifestShare row.task).sum ∧
      m.gaps.length + m.gapsOmitted = m.counts.skipped + m.counts.failed + m.scope.gaps ∧
      outcomeTotal m.reasons .skipped = m.counts.skipped ∧
      outcomeTotal m.reasons .failed = m.counts.failed ∧
      outcomeTotal m.reasons .scopeGap = m.scope.gaps ∧
      (∀ r, m.scope.requested = some r → r = m.scope.discovered + m.scope.gaps) ∧
      (m.coverageState = .complete ↔
        (status ≠ .cancelled ∧ status ≠ .failed ∧ status ≠ .partly) ∧
        (∀ row ∈ table.rows, row.validatedReport.isSome) ∧
        m.counts.skipped = 0 ∧ m.counts.failed = 0 ∧ m.scope.gaps = 0) := by
  have hbuild : ∀ rows,
      manifestOfRows status rows = some (buildManifest status (orderedTasks rows)) :=
    fun rows => if_pos (buildManifest_valid status (orderedTasks rows))
  have hm := reconciled_manifestTally (orderedTasks table.rows)
  have hvalid := buildManifest_valid status (orderedTasks table.rows)
  refine ⟨_, hbuild table.rows, ?_,
    (totals_buildManifest status _).trans (sum_orderedTasks table.rows), hm.references, ?_, ?_, ?_,
    hvalid.scope.reconciles, ?_⟩
  · intro rows hperm
    rw [hbuild, orderedTasks, mergeSort_rows table.keyed hperm, ← orderedTasks]
  · rw [outcomeTotal_buildManifest]
    exact hm.skipped
  · rw [outcomeTotal_buildManifest]
    exact hm.failed
  · rw [outcomeTotal_buildManifest]
    exact hm.scopeGaps
  · rw [← unreported_eq_zero_iff]
    refine coverageState_complete_iff.trans ?_
    simp only [buildManifest]
    tauto

end IcebergSST
