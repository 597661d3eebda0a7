import IcebergSST.Coverage

/-!
# What a fetch tallies as it goes

`TaskCoverage` and `FetchOutcome` are the two accumulators a connector writes into,
and `coverageDelta` is the difference of two payloads rendered from one of them.
`CoveragePayload.totals` reads a payload as an integer vector: every disposition
adds a fixed weight to it, a delta subtracts, and a merge adds.

`β` is the type of object references a connector names and `χ` of the checkpoints
it publishes; both are opaque to the engine, which only compares checkpoints.
-/

namespace IcebergSST

variable {β χ ρ : Type}

inductive CoverageIndex
  | requested
  | discovered
  | scanned
  | skipped
  | failed
  | scopeDiscovered
  | scopeGaps
  | references
  | reason (k : ReasonKey)
  deriving DecidableEq

abbrev Totals := CoverageIndex → ℤ

def CoveragePayload.totals (p : CoveragePayload) : Totals
  | .requested => p.counts.requested
  | .discovered => p.counts.discovered
  | .scanned => p.counts.scanned
  | .skipped => p.counts.skipped
  | .failed => p.counts.failed
  | .scopeDiscovered => p.scope.discovered
  | .scopeGaps => p.scope.gaps
  | .references => p.gaps.length + p.gapsOmitted
  | .reason k => reasonTotal p.reasons k

def TaskCoverageReport.totals (r : TaskCoverageReport) : Totals := r.payload.totals

/-- A task with no stored report has accounted for nothing. -/
def storedTotals (r : Option TaskCoverageReport) : Totals :=
  r.elim 0 TaskCoverageReport.totals

theorem totals_mergePayload {a b : CoveragePayload} (ha : a.Valid) (hb : b.Valid) :
    (mergePayload a b).totals = a.totals + b.totals := by
  funext i
  cases i with
  | reason k => exact reasonTotal_mergePayload ha hb k
  | references =>
      simp only [CoveragePayload.totals, mergePayload, List.length_append, Pi.add_apply]
      push_cast
      ring
  | _ => rfl

theorem storedTotals_mergeTaskReport {existing : Option TaskCoverageReport}
    {delta merged : TaskCoverageReport} (h : mergeTaskReport existing delta = some merged) :
    storedTotals (some merged) = storedTotals existing + delta.totals := by
  cases existing with
  | none =>
      obtain rfl : delta = merged := Option.some.inj h
      simp [storedTotals]
  | some report =>
      simp only [mergeTaskReport] at h
      split_ifs at h
      obtain rfl := Option.some.inj h
      exact totals_mergePayload report.valid delta.valid

structure TaskCoverage (β : Type) where
  phase : ScanTaskKind
  /-- The keyed reference digest, absent when the lease carried no usable pepper. -/
  referenceKey : Option (CoverageObjectKind → β → GapReference) := none
  requested : ℤ := 0
  discovered : ℤ := 0
  scanned : ℤ := 0
  skipped : ℤ := 0
  failed : ℤ := 0
  scopeRequested : Option ℤ := none
  scopeDiscovered : ℤ := 0
  scopeGaps : ℤ := 0
  reasonCounts : ReasonKey → ℤ := 0
  gaps : List CoverageGap := []
  gapsOmitted : ℤ := 0

namespace TaskCoverage

def reference (c : TaskCoverage β) (kind : CoverageObjectKind) (ref : Option β) :
    Option GapReference :=
  match c.referenceKey, ref with
  | some digest, some r => some (digest kind r)
  | _, _ => none

def observed (c : TaskCoverage β) : TaskCoverage β :=
  { c with requested := c.requested + 1, discovered := c.discovered + 1 }

def gap (c : TaskCoverage β) (key : ReasonKey) (kind : CoverageObjectKind) (ref : Option β) :
    TaskCoverage β :=
  let counted := { c with reasonCounts := c.reasonCounts + Pi.single key 1 }
  match c.reference kind ref with
  | none => { counted with gapsOmitted := c.gapsOmitted + 1 }
  | some digest =>
      if maxCoverageGapReferences ≤ c.gaps.length then
        { counted with gapsOmitted := c.gapsOmitted + 1 }
      else { counted with gaps := c.gaps ++ [⟨kind, key, digest⟩] }

def scannedFor (c : TaskCoverage β) : TaskCoverage β :=
  { c.observed with scanned := c.scanned + 1 }

def skippedFor (c : TaskCoverage β) (reason : AllowedReason .skipped)
    (kind : CoverageObjectKind) (ref : Option β) : TaskCoverage β :=
  { c.observed with skipped := c.skipped + 1 }.gap (.skipped, reason) kind ref

def failedFor (c : TaskCoverage β) (reason : AllowedReason .failed)
    (kind : CoverageObjectKind) (ref : Option β) : TaskCoverage β :=
  { c.observed with failed := c.failed + 1 }.gap (.failed, reason) kind ref

/-- Replace an already-recorded scan with one incomplete final outcome; `none` is
the `ValueError` of an object that was never recorded. -/
def scannedButIncomplete (c : TaskCoverage β) (reason : AllowedReason .failed)
    (kind : CoverageObjectKind) (ref : β) : Option (TaskCoverage β) :=
  if c.scanned < 1 then none
  else some ({ c with scanned := c.scanned - 1, failed := c.failed + 1 }.gap
    (.failed, reason) kind (some ref))

def scopeFound (c : TaskCoverage β) : TaskCoverage β :=
  { c with scopeDiscovered := c.scopeDiscovered + 1 }

def scopeGap (c : TaskCoverage β) (reason : AllowedReason .scopeGap) (ref : Option β) :
    TaskCoverage β :=
  { c with scopeGaps := c.scopeGaps + 1 }.gap (.scopeGap, reason) .scope ref

def asPayload (c : TaskCoverage β) : CoveragePayload where
  version := "1"
  phase := c.phase
  counts :=
    { requested := c.requested
      discovered := c.discovered
      scanned := c.scanned
      skipped := c.skipped
      failed := c.failed }
  scope :=
    { requested := c.scopeRequested
      discovered := c.scopeDiscovered
      gaps := c.scopeGaps }
  reasons := reasonEntries c.reasonCounts
  gaps := c.gaps
  gapsOmitted := c.gapsOmitted

def totals (c : TaskCoverage β) : Totals
  | .requested => c.requested
  | .discovered => c.discovered
  | .scanned => c.scanned
  | .skipped => c.skipped
  | .failed => c.failed
  | .scopeDiscovered => c.scopeDiscovered
  | .scopeGaps => c.scopeGaps
  | .references => c.gaps.length + c.gapsOmitted
  | .reason k => c.reasonCounts k

theorem totals_asPayload {c : TaskCoverage β} (h : 0 ≤ c.reasonCounts) :
    c.asPayload.totals = c.totals := by
  funext i
  cases i with
  | reason k => exact reasonTotal_reasonEntries_of_nonneg (h k)
  | _ => rfl

end TaskCoverage

def observedWeight : Totals :=
  Pi.single .requested 1 + Pi.single .discovered 1

def gapWeight (key : ReasonKey) : Totals :=
  Pi.single .references 1 + Pi.single (.reason key) 1

def scannedWeight : Totals :=
  observedWeight + Pi.single .scanned 1

def skippedWeight (reason : CoverageReason) : Totals :=
  observedWeight + Pi.single .skipped 1 + gapWeight (.skipped, reason)

def failedWeight (reason : CoverageReason) : Totals :=
  observedWeight + Pi.single .failed 1 + gapWeight (.failed, reason)

def incompleteWeight (reason : CoverageReason) : Totals :=
  Pi.single .failed 1 - Pi.single .scanned 1 + gapWeight (.failed, reason)

def scopeGapWeight (reason : CoverageReason) : Totals :=
  Pi.single .scopeGaps 1 + gapWeight (.scopeGap, reason)

namespace TaskCoverage
variable (c : TaskCoverage β)

theorem gap_cases (key : ReasonKey) (kind : CoverageObjectKind) (ref : Option β) :
    (∃ digest, c.gaps.length < maxCoverageGapReferences ∧ c.gap key kind ref =
      { c with
        reasonCounts := c.reasonCounts + Pi.single key 1
        gaps := c.gaps ++ [⟨kind, key, digest⟩] }) ∨
    c.gap key kind ref =
      { c with
        reasonCounts := c.reasonCounts + Pi.single key 1
        gapsOmitted := c.gapsOmitted + 1 } := by
  unfold gap
  cases c.reference kind ref with
  | none => exact Or.inr rfl
  | some digest =>
      by_cases hfull : maxCoverageGapReferences ≤ c.gaps.length
      · exact Or.inr (by simp only [if_pos hfull])
      · exact Or.inl ⟨digest, by omega, by simp only [if_neg hfull]⟩

theorem totals_gap (key : ReasonKey) (kind : CoverageObjectKind) (ref : Option β) :
    (c.gap key kind ref).totals = c.totals + gapWeight key := by
  funext i
  rcases c.gap_cases key kind ref with ⟨digest, _, hg⟩ | hg <;> rw [hg]
  all_goals
    cases i with
    | reason k => simp [totals, gapWeight, Pi.single_apply]
    | references => simp [totals, gapWeight]; try ring
    | _ => simp [totals, gapWeight]

theorem gap_reasonCounts (key : ReasonKey) (kind : CoverageObjectKind) (ref : Option β) :
    (c.gap key kind ref).reasonCounts = c.reasonCounts + Pi.single key 1 := by
  unfold gap
  cases c.reference kind ref with
  | none => rfl
  | some digest => dsimp only; split_ifs <;> rfl

theorem gaps_prefix_gap (key : ReasonKey) (kind : CoverageObjectKind) (ref : Option β) :
    c.gaps <+: (c.gap key kind ref).gaps := by
  unfold gap
  cases c.reference kind ref with
  | none => exact List.prefix_rfl
  | some digest =>
      dsimp only
      split_ifs
      · exact List.prefix_rfl
      · exact List.prefix_append _ _

theorem totals_scannedFor : c.scannedFor.totals = c.totals + scannedWeight := by
  funext i
  cases i <;> simp [scannedFor, observed, totals, scannedWeight, observedWeight]

theorem totals_skippedFor (reason : AllowedReason .skipped) (kind : CoverageObjectKind)
    (ref : Option β) :
    (c.skippedFor reason kind ref).totals = c.totals + skippedWeight reason := by
  rw [skippedFor, totals_gap, skippedWeight, ← add_assoc]
  congr 1
  funext i
  cases i <;> simp [observed, totals, observedWeight]

theorem totals_failedFor (reason : AllowedReason .failed) (kind : CoverageObjectKind)
    (ref : Option β) :
    (c.failedFor reason kind ref).totals = c.totals + failedWeight reason := by
  rw [failedFor, totals_gap, failedWeight, ← add_assoc]
  congr 1
  funext i
  cases i <;> simp [observed, totals, observedWeight]

theorem totals_scopeGap (reason : AllowedReason .scopeGap) (ref : Option β) :
    (c.scopeGap reason ref).totals = c.totals + scopeGapWeight reason := by
  rw [scopeGap, totals_gap, scopeGapWeight, ← add_assoc]
  congr 1
  funext i
  cases i <;> simp [totals]

theorem totals_scannedButIncomplete {c' : TaskCoverage β} {reason : AllowedReason .failed}
    {kind : CoverageObjectKind} {ref : β} (h : c.scannedButIncomplete reason kind ref = some c') :
    c'.totals = c.totals + incompleteWeight reason := by
  unfold scannedButIncomplete at h
  split_ifs at h
  rw [← Option.some.inj h, totals_gap, incompleteWeight, ← add_assoc]
  congr 1
  funext i
  cases i <;> simp [totals, sub_eq_add_neg]

end TaskCoverage

/-- Every reason subtotal and the list of references only grew from `sent` to `p`. -/
structure CoveragePayload.Extends (p sent : CoveragePayload) : Prop where
  reasons : ∀ k, reasonTotal sent.reasons k ≤ reasonTotal p.reasons k
  gaps : sent.gaps.length ≤ p.gaps.length

theorem CoveragePayload.Extends.rfl {p : CoveragePayload} : p.Extends p :=
  ⟨fun _ => le_rfl, le_rfl⟩

theorem CoveragePayload.Extends.trans {p q r : CoveragePayload} (hpq : p.Extends q)
    (hqr : q.Extends r) : p.Extends r :=
  ⟨fun k => (hqr.reasons k).trans (hpq.reasons k), hqr.gaps.trans hpq.gaps⟩

/-- The same for accumulators, with counters that never went negative. -/
structure TaskCoverage.Extends (c c' : TaskCoverage β) : Prop where
  reasons : c'.reasonCounts ≤ c.reasonCounts
  gaps : c'.gaps <+: c.gaps

theorem TaskCoverage.Extends.rfl {c : TaskCoverage β} : c.Extends c :=
  ⟨le_rfl, List.prefix_rfl⟩

theorem TaskCoverage.Extends.trans {c c' c'' : TaskCoverage β} (h : c.Extends c')
    (h' : c'.Extends c'') : c.Extends c'' :=
  ⟨h'.reasons.trans h.reasons, h'.gaps.trans h.gaps⟩

theorem TaskCoverage.Extends.asPayload {c c' : TaskCoverage β} (h : c.Extends c')
    (hnn : 0 ≤ c'.reasonCounts) : c.asPayload.Extends c'.asPayload where
  reasons := by
    intro k
    have hk := h.reasons k
    have hz := hnn k
    rw [TaskCoverage.asPayload, TaskCoverage.asPayload,
      reasonTotal_reasonEntries_of_nonneg hz,
      reasonTotal_reasonEntries_of_nonneg (hz.trans hk)]
    exact hk
  gaps := h.gaps.length_le

theorem TaskCoverage.extends_gap (c : TaskCoverage β) (key : ReasonKey)
    (kind : CoverageObjectKind) (ref : Option β) : (c.gap key kind ref).Extends c :=
  ⟨by
    rw [gap_reasonCounts]
    exact le_add_of_nonneg_right (Pi.single_nonneg.2 zero_le_one),
    c.gaps_prefix_gap key kind ref⟩

/-- What `current` adds to a coverage payload already reported. -/
def coverageDelta (current sent : CoveragePayload) : CoveragePayload where
  version := current.version
  phase := current.phase
  counts :=
    { requested := current.counts.requested - sent.counts.requested
      discovered := current.counts.discovered - sent.counts.discovered
      scanned := current.counts.scanned - sent.counts.scanned
      skipped := current.counts.skipped - sent.counts.skipped
      failed := current.counts.failed - sent.counts.failed }
  scope :=
    { requested := match current.scope.requested, sent.scope.requested with
        | some a, some b => some (a - b)
        | a, _ => a
      discovered := current.scope.discovered - sent.scope.discovered
      gaps := current.scope.gaps - sent.scope.gaps }
  reasons := reasonEntries
    (fun k => reasonTotal current.reasons k - reasonTotal sent.reasons k)
  gaps := current.gaps.drop sent.gaps.length
  gapsOmitted := current.gapsOmitted - sent.gapsOmitted

theorem totals_coverageDelta {current sent : CoveragePayload} (h : current.Extends sent) :
    (coverageDelta current sent).totals = current.totals - sent.totals := by
  funext i
  cases i with
  | reason k => exact reasonTotal_reasonEntries_of_nonneg (sub_nonneg.2 (h.reasons k))
  | references =>
      have hlen := h.gaps
      simp only [CoveragePayload.totals, coverageDelta, List.length_drop, Pi.sub_apply]
      omega
  | _ => rfl

inductive CountKey
  | units
  | unitsSkipped
  | unitsFailed
  | unitsTruncated
  | droppedBelowThreshold
  | prefiltered
  | specsDiscovered
  deriving DecidableEq, Repr

/-- A tally dictionary; an absent key is zero. -/
abbrev Counts := CountKey → ℤ

structure FetchOutcome (β χ ρ : Type) where
  units : ℤ := 0
  skipped : ℤ := 0
  failed : ℤ := 0
  coverage : TaskCoverage β
  /-- The most recent boundary the connector published this run. -/
  checkpoint : Option χ := none
  cursor : Option ρ := none

namespace FetchOutcome

def start (referenceKey : Option (CoverageObjectKind → β → GapReference)) : FetchOutcome β χ ρ where
  coverage := { phase := .fetch, referenceKey }

def scannedFor (o : FetchOutcome β χ ρ) : FetchOutcome β χ ρ :=
  { o with units := o.units + 1, coverage := o.coverage.scannedFor }

def skippedFor (o : FetchOutcome β χ ρ) (reason : AllowedReason .skipped)
    (kind : CoverageObjectKind) (ref : Option β) : FetchOutcome β χ ρ :=
  { o with skipped := o.skipped + 1, coverage := o.coverage.skippedFor reason kind ref }

def failedFor (o : FetchOutcome β χ ρ) (reason : AllowedReason .failed)
    (kind : CoverageObjectKind) (ref : Option β) : FetchOutcome β χ ρ :=
  { o with failed := o.failed + 1, coverage := o.coverage.failedFor reason kind ref }

def scopeGapFor (o : FetchOutcome β χ ρ) (reason : AllowedReason .scopeGap) (ref : Option β) :
    FetchOutcome β χ ρ :=
  { o with failed := o.failed + 1, coverage := o.coverage.scopeGap reason ref }

def scannedButIncomplete (o : FetchOutcome β χ ρ) (reason : AllowedReason .failed)
    (kind : CoverageObjectKind) (ref : β) : Option (FetchOutcome β χ ρ) :=
  (o.coverage.scannedButIncomplete reason kind ref).map (fun c => { o with coverage := c })

def checkpointAt (o : FetchOutcome β χ ρ) (c : χ) : FetchOutcome β χ ρ :=
  { o with checkpoint := some c }

def cursorAt (o : FetchOutcome β χ ρ) (c : ρ) : FetchOutcome β χ ρ :=
  { o with cursor := some c }

def asCounts (o : FetchOutcome β χ ρ) : Counts
  | .units => o.units
  | .unitsSkipped => o.skipped
  | .unitsFailed => o.failed
  | _ => 0

def asCoverage (o : FetchOutcome β χ ρ) : CoveragePayload := o.coverage.asPayload

end FetchOutcome

end IcebergSST
