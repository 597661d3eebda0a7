import IcebergSST.History
import IcebergSST.Merging

/-!
# Deltas re-assemble the whole

The trajectory of a fetch is a list of units, each the operations between two
boundaries. Batches cut it anywhere between units and ship the difference to what was
sent before; the terminal submission ships the rest, with a task-wide gap when the
loop was left early. Whatever the cuts, every difference is a report the API admits,
and merging the reports gives the coverage of the whole trajectory.
-/

namespace IcebergSST

variable {κ β χ ρ : Type}

inductive FetchOp (β : Type)
  | scannedFor
  | skippedFor (reason : AllowedReason .skipped) (kind : CoverageObjectKind) (ref : Option β)
  | failedFor (reason : AllowedReason .failed) (kind : CoverageObjectKind) (ref : Option β)
  | scopeGapFor (reason : AllowedReason .scopeGap) (ref : Option β)
  | scannedButIncomplete (reason : AllowedReason .failed) (kind : CoverageObjectKind) (ref : β)
  /-- What detection adds to the tallies of the loop for one unit. -/
  | detected (truncated : Bool) (droppedBelowThreshold : ℕ)
  deriving DecidableEq

/-- The outcome of a fetch and the tallies `_fetch` keeps beside it. -/
structure FetchTally (β χ ρ : Type) where
  outcome : FetchOutcome β χ ρ
  unitsTruncated : ℤ := 0
  droppedBelowThreshold : ℤ := 0

namespace FetchTally

def start (referenceKey : Option (CoverageObjectKind → β → GapReference)) :
    FetchTally β χ ρ where
  outcome := .start referenceKey

/-- `{**outcome.as_counts(), **tallies}` -/
def counts (s : FetchTally β χ ρ) : Counts
  | .unitsTruncated => s.unitsTruncated
  | .droppedBelowThreshold => s.droppedBelowThreshold
  | k => s.outcome.asCounts k

end FetchTally

namespace FetchOp

def apply (s : FetchTally β χ ρ) : FetchOp β → Option (FetchTally β χ ρ)
  | .scannedFor => some { s with outcome := s.outcome.scannedFor }
  | .skippedFor reason kind ref => some { s with outcome := s.outcome.skippedFor reason kind ref }
  | .failedFor reason kind ref => some { s with outcome := s.outcome.failedFor reason kind ref }
  | .scopeGapFor reason ref => some { s with outcome := s.outcome.scopeGapFor reason ref }
  | .scannedButIncomplete reason kind ref =>
      (s.outcome.scannedButIncomplete reason kind ref).map fun o => { s with outcome := o }
  | .detected truncated dropped =>
      some
        { s with
          unitsTruncated := s.unitsTruncated + if truncated then 1 else 0
          droppedBelowThreshold := s.droppedBelowThreshold + dropped }

/-- Callers name the kind of an object; the kind of a scope is written by `scope_gap`. -/
def NamesObject : FetchOp β → Bool
  | .skippedFor _ kind _ => kind ≠ .scope
  | .failedFor _ kind _ => kind ≠ .scope
  | .scannedButIncomplete _ kind _ => kind ≠ .scope
  | _ => true

/-- A scan may be replaced only while its unit is being processed: `scans` are those
recorded since the last boundary and not replaced yet. -/
def balanced : ℕ → List (FetchOp β) → Bool
  | _, [] => true
  | scans, .scannedFor :: ops => balanced (scans + 1) ops
  | 0, .scannedButIncomplete _ _ _ :: _ => false
  | scans + 1, .scannedButIncomplete _ _ _ :: ops => balanced scans ops
  | scans, _ :: ops => balanced scans ops

def weight : FetchOp β → Totals
  | .scannedFor => scannedWeight
  | .skippedFor reason _ _ => skippedWeight reason
  | .failedFor reason _ _ => failedWeight reason
  | .scopeGapFor reason _ => scopeGapWeight reason
  | .scannedButIncomplete reason _ _ => incompleteWeight reason
  | .detected _ _ => 0

def tally : FetchOp β → Counts
  | .scannedFor => Pi.single .units 1
  | .skippedFor _ _ _ => Pi.single .unitsSkipped 1
  | .failedFor _ _ _ => Pi.single .unitsFailed 1
  | .scopeGapFor _ _ => Pi.single .unitsFailed 1
  | .scannedButIncomplete _ _ _ => 0
  | .detected truncated dropped =>
      Pi.single .unitsTruncated (if truncated then 1 else 0) +
        Pi.single .droppedBelowThreshold (dropped : ℤ)

theorem tally_nonneg (op : FetchOp β) : 0 ≤ op.tally := by
  cases op with
  | detected truncated dropped =>
      apply add_nonneg
      · apply Pi.single_nonneg.2
        split_ifs <;> simp
      · exact Pi.single_nonneg.2 (by simp)
  | scannedButIncomplete => exact le_rfl
  | _ => exact Pi.single_nonneg.2 zero_le_one

theorem tally_prefiltered (op : FetchOp β) : op.tally .prefiltered = 0 := by
  cases op <;> simp [tally]

end FetchOp

namespace FetchTally

def run (s : FetchTally β χ ρ) (ops : List (FetchOp β)) : Option (FetchTally β χ ρ) :=
  ops.foldlM FetchOp.apply s

@[simp] theorem run_nil (s : FetchTally β χ ρ) : s.run [] = some s := rfl

@[simp] theorem run_cons (s : FetchTally β χ ρ) (op : FetchOp β) (ops : List (FetchOp β)) :
    s.run (op :: ops) = (op.apply s).bind fun s' => s'.run ops := rfl

theorem run_append (s : FetchTally β χ ρ) (ops ops' : List (FetchOp β)) :
    s.run (ops ++ ops') = (s.run ops).bind fun s' => s'.run ops' := by
  simp [run, List.foldlM_append, bind]

end FetchTally

/-- The operations between two boundaries. -/
structure UnitOps (β : Type) where
  ops : List (FetchOp β)
  objects : ops.all FetchOp.NamesObject
  balanced : FetchOp.balanced 0 ops

def opsOf (units : List (UnitOps β)) : List (FetchOp β) := units.flatMap UnitOps.ops

def weightOf (ops : List (FetchOp β)) : Totals := (ops.map FetchOp.weight).sum

def tallyOf (ops : List (FetchOp β)) : Counts := (ops.map FetchOp.tally).sum

/-- The operations of one call of the connector, or of one turn of the loop at a unit. -/
def ConnectorEvent.ops : ConnectorEvent κ β χ ρ → List (FetchOp β)
  | .scannedFor => [.scannedFor]
  | .skippedFor reason kind ref => [.skippedFor reason kind ref]
  | .failedFor reason kind ref => [.failedFor reason kind ref]
  | .scopeGapFor reason ref => [.scopeGapFor reason ref]
  | .checkpointAt _ => []
  | .cursorAt _ => []
  | .yield u =>
      .detected u.truncated u.droppedBelowThreshold ::
        if u.truncated ∧ ¬ u.displayTruncated then
          [.scannedButIncomplete ⟨_, failed_outputLimit⟩ u.kind u.locator]
        else []

/-- One event of the loop and its operations do the same to the coverage and the tallies. -/
theorem ConnectorEvent.run_ops {s : FetchTally β χ ρ} {e : ConnectorEvent κ β χ ρ}
    {c : TaskCoverage β} (h : e.cover s.outcome.coverage = some c) :
    ∃ s', s.run e.ops = some s' ∧ s'.outcome.coverage = c ∧ s'.counts = s.counts + e.tally := by
  cases e with
  | yield u =>
      simp only [cover] at h
      simp only [ops]
      split_ifs at h ⊢ with hu
      · refine ⟨_, by simp [FetchOp.apply, FetchOutcome.scannedButIncomplete, h]; rfl, rfl, ?_⟩
        funext k
        cases k <;> simp [FetchTally.counts, FetchOutcome.asCounts, tally]
      · refine ⟨_, rfl, Option.some.inj h, ?_⟩
        funext k
        cases k <;> simp [FetchTally.counts, FetchOutcome.asCounts, tally]
  | checkpointAt | cursorAt =>
      exact ⟨s, rfl, Option.some.inj h, (add_zero _).symm⟩
  | _ =>
      refine ⟨_, rfl, Option.some.inj h, ?_⟩
      funext k
      cases k <;> simp [FetchTally.counts, FetchOutcome.asCounts, tally, FetchOutcome.scannedFor,
        FetchOutcome.skippedFor, FetchOutcome.failedFor, FetchOutcome.scopeGapFor]

/-- The operations of a history build its coverage and its tallies. -/
theorem run_flatMap_ops {digest : CoverageObjectKind → β → GapReference} {h : Events κ β χ ρ}
    {c : TaskCoverage β} (hc : coverageOf digest h = some c) :
    ∃ s' : FetchTally β χ ρ, (FetchTally.start (some digest)).run (h.flatMap ConnectorEvent.ops) =
      some s' ∧ s'.outcome.coverage = c ∧ s'.counts = countsOf h := by
  induction h using List.reverseRecOn generalizing c with
  | nil =>
      refine ⟨_, rfl, Option.some.inj hc, ?_⟩
      funext k
      cases k <;> rfl
  | append_singleton h e ih =>
      rw [coverageOf_append_singleton] at hc
      obtain ⟨c₀, hc₀, he⟩ := Option.bind_eq_some_iff.1 hc
      obtain ⟨s₀, hrun₀, rfl, hcounts₀⟩ := ih hc₀
      obtain ⟨s', hrun, hcoverage, hcounts⟩ := ConnectorEvent.run_ops he
      refine ⟨s', ?_, hcoverage, ?_⟩
      · simp only [List.flatMap_append, List.flatMap_singleton, FetchTally.run_append, hrun₀]
        exact hrun
      · rw [hcounts, hcounts₀, countsOf_append, countsOf_singleton]

theorem FetchOp.reconciled (op : FetchOp β) : Reconciled op.weight := by
  cases op with
  | scannedFor => exact reconciled_scanned
  | skippedFor reason kind ref => exact reconciled_skipped reason
  | failedFor reason kind ref => exact reconciled_failed reason
  | scopeGapFor reason ref => exact reconciled_scopeGap reason
  | scannedButIncomplete reason kind ref => exact reconciled_incomplete reason
  | detected => exact .zero

theorem reconciled_weightOf (ops : List (FetchOp β)) : Reconciled (weightOf ops) := by
  induction ops with
  | nil => exact .zero
  | cons op ops ih =>
      rw [weightOf, List.map_cons, List.sum_cons]
      exact op.reconciled.add ih

/-- The accumulator `c'` is `c` with the weight `w` and the references `tail` added. -/
structure TaskCoverage.Adds (c c' : TaskCoverage β) (w : Totals) (tail : List CoverageGap) :
    Prop where
  phase : c'.phase = c.phase
  requested : c'.scopeRequested = c.scopeRequested
  totals : c'.totals = c.totals + w
  gaps : c'.gaps = c.gaps ++ tail
  valid : ∀ g ∈ tail, g.Valid
  bounded : ∀ k, gapTotal tail k ≤ w (.reason k)
  counted : (tail.length : ℤ) ≤ w .references
  capped : c.gaps.length ≤ maxCoverageGapReferences → c'.gaps.length ≤ maxCoverageGapReferences

namespace TaskCoverage.Adds
variable {c c' c'' : TaskCoverage β} {w w' : Totals} {tail tail' : List CoverageGap}

theorem refl (c : TaskCoverage β) : c.Adds c 0 [] := by
  constructor <;> simp [gapTotal]

theorem trans (h : c.Adds c' w tail) (h' : c'.Adds c'' w' tail') :
    c.Adds c'' (w + w') (tail ++ tail') where
  phase := h'.phase.trans h.phase
  requested := h'.requested.trans h.requested
  totals := by rw [h'.totals, h.totals, add_assoc]
  gaps := by rw [h'.gaps, h.gaps, List.append_assoc]
  valid := fun g hg => (List.mem_append.1 hg).elim (h.valid g) (h'.valid g)
  bounded := by
    intro k
    have hk := add_le_add (h.bounded k) (h'.bounded k)
    simpa [gapTotal, List.countP_append] using hk
  counted := by
    have hl := add_le_add h.counted h'.counted
    simpa [List.length_append] using hl
  capped := fun hc => h'.capped (h.capped hc)

theorem of_counters (hphase : c'.phase = c.phase)
    (hrequested : c'.scopeRequested = c.scopeRequested)
    (hgaps : c'.gaps = c.gaps) (hw : c'.totals = c.totals + w) (hreason : ∀ k, 0 ≤ w (.reason k))
    (hreferences : 0 ≤ w .references) : c.Adds c' w [] where
  phase := hphase
  requested := hrequested
  totals := hw
  gaps := by rw [hgaps, List.append_nil]
  valid := by simp
  bounded := by simpa [gapTotal] using hreason
  counted := by simpa using hreferences
  capped := by rw [hgaps]; exact id

theorem gap (c : TaskCoverage β) {key : ReasonKey} {kind : CoverageObjectKind} (ref : Option β)
    (hkind : key.1 = .scopeGap ↔ kind = .scope) :
    ∃ tail, c.Adds (c.gap key kind ref) (gapWeight key) tail := by
  have htotals := c.totals_gap key kind ref
  rcases c.gap_cases key kind ref with ⟨digest, hroom, hgap⟩ | hgap
  · rw [hgap] at htotals ⊢
    refine ⟨[⟨kind, key, digest⟩], rfl, rfl, htotals, rfl, ?_, ?_, ?_, ?_⟩
    · simpa [CoverageGap.Valid] using hkind
    · intro k
      by_cases hk : key = k
      · simp [gapTotal, gapWeight, hk]
      · simp [gapTotal, gapWeight, hk, Ne.symm hk]
    · simp [gapWeight]
    · intro _
      simpa using hroom
  · rw [hgap] at htotals ⊢
    refine ⟨[], of_counters rfl rfl rfl htotals ?_ ?_⟩
    · intro k
      by_cases hk : k = key <;> simp [gapWeight, hk]
    · simp [gapWeight]

theorem recorded {c c₁ : TaskCoverage β} {base : Totals} {key : ReasonKey}
    {kind : CoverageObjectKind} (ref : Option β) (hkind : key.1 = .scopeGap ↔ kind = .scope)
    (hphase : c₁.phase = c.phase) (hrequested : c₁.scopeRequested = c.scopeRequested)
    (hgaps : c₁.gaps = c.gaps) (hw : c₁.totals = c.totals + base)
    (hreason : ∀ k, 0 ≤ base (.reason k)) (hreferences : 0 ≤ base .references) :
    ∃ tail, c.Adds (c₁.gap key kind ref) (base + gapWeight key) tail := by
  obtain ⟨tail, hgap⟩ := gap c₁ ref hkind
  exact ⟨_, (of_counters hphase hrequested hgaps hw hreason hreferences).trans hgap⟩

theorem scopeGap (c : TaskCoverage β) (reason : AllowedReason .scopeGap) (ref : Option β) :
    ∃ tail, c.Adds (c.scopeGap reason ref) (scopeGapWeight reason) tail := by
  refine recorded ref (by simp) rfl rfl rfl ?_ ?_ ?_
  · funext i
    cases i <;> simp [TaskCoverage.totals]
  · simp
  · simp

end TaskCoverage.Adds

theorem FetchOp.adds {s s' : FetchTally β χ ρ} {op : FetchOp β} (h : op.apply s = some s')
    (hkind : op.NamesObject) :
    ∃ tail, s.outcome.coverage.Adds s'.outcome.coverage op.weight tail := by
  cases op with
  | scannedFor =>
      rw [← Option.some.inj h]
      exact ⟨[], .of_counters rfl rfl rfl s.outcome.coverage.totals_scannedFor
        (by simp [weight, scannedWeight, observedWeight])
        (by simp [weight, scannedWeight, observedWeight])⟩
  | detected truncated dropped =>
      rw [← Option.some.inj h]
      exact ⟨[], .refl _⟩
  | skippedFor reason kind ref =>
      rw [← Option.some.inj h]
      refine TaskCoverage.Adds.recorded ref (by simpa [NamesObject] using hkind) rfl rfl rfl
        ?_ ?_ ?_
      · funext i
        cases i <;> simp [TaskCoverage.observed, TaskCoverage.totals, observedWeight]
      · simp [observedWeight]
      · simp [observedWeight]
  | failedFor reason kind ref =>
      rw [← Option.some.inj h]
      refine TaskCoverage.Adds.recorded ref (by simpa [NamesObject] using hkind) rfl rfl rfl
        ?_ ?_ ?_
      · funext i
        cases i <;> simp [TaskCoverage.observed, TaskCoverage.totals, observedWeight]
      · simp [observedWeight]
      · simp [observedWeight]
  | scopeGapFor reason ref =>
      rw [← Option.some.inj h]
      exact TaskCoverage.Adds.scopeGap _ reason ref
  | scannedButIncomplete reason kind ref =>
      obtain ⟨o, ho, rfl⟩ := Option.map_eq_some_iff.1 h
      obtain ⟨c, hc, rfl⟩ := Option.map_eq_some_iff.1 ho
      unfold TaskCoverage.scannedButIncomplete at hc
      split_ifs at hc
      obtain rfl := Option.some.inj hc
      refine TaskCoverage.Adds.recorded (some ref) (by simpa [NamesObject] using hkind) rfl rfl rfl
        ?_ ?_ ?_
      · funext i
        cases i <;> simp [TaskCoverage.totals, sub_eq_add_neg]
      · simp
      · simp

theorem FetchOp.counts_apply {s s' : FetchTally β χ ρ} {op : FetchOp β}
    (h : op.apply s = some s') : s'.counts = s.counts + op.tally := by
  cases op with
  | scannedButIncomplete reason kind ref =>
      obtain ⟨o, ho, rfl⟩ := Option.map_eq_some_iff.1 h
      obtain ⟨c, hc, rfl⟩ := Option.map_eq_some_iff.1 ho
      simp only [tally, add_zero]
      funext k
      cases k <;> rfl
  | detected truncated dropped =>
      rw [← Option.some.inj h]
      funext k
      cases k <;> simp [FetchTally.counts, FetchOutcome.asCounts, tally]
  | _ =>
      rw [← Option.some.inj h]
      funext k
      cases k <;> simp [FetchTally.counts, FetchOutcome.asCounts, tally, FetchOutcome.scannedFor,
        FetchOutcome.skippedFor, FetchOutcome.failedFor, FetchOutcome.scopeGapFor]

theorem FetchOp.apply_isSome {s : FetchTally β χ ρ} {op : FetchOp β}
    (h : ∀ reason kind ref, op = .scannedButIncomplete reason kind ref →
      1 ≤ s.outcome.coverage.scanned) : ∃ s', op.apply s = some s' := by
  cases op with
  | scannedButIncomplete reason kind ref =>
      have hone := h reason kind ref rfl
      simp only [apply, FetchOutcome.scannedButIncomplete, TaskCoverage.scannedButIncomplete]
      rw [if_neg (by omega)]
      exact ⟨_, rfl⟩
  | _ => exact ⟨_, rfl⟩

section Run
variable {s : FetchTally β χ ρ} {ops : List (FetchOp β)} {scans : ℕ}

theorem weightOf_cons (op : FetchOp β) (ops : List (FetchOp β)) :
    weightOf (op :: ops) = op.weight + weightOf ops := by
  simp [weightOf]

theorem tallyOf_cons (op : FetchOp β) (ops : List (FetchOp β)) :
    tallyOf (op :: ops) = op.tally + tallyOf ops := by
  simp [tallyOf]

theorem weightOf_append (ops ops' : List (FetchOp β)) :
    weightOf (ops ++ ops') = weightOf ops + weightOf ops' := by
  simp [weightOf]

theorem tallyOf_nonneg (ops : List (FetchOp β)) : 0 ≤ tallyOf ops := by
  induction ops with
  | nil => exact le_rfl
  | cons op ops ih =>
      rw [tallyOf_cons]
      exact add_nonneg op.tally_nonneg ih

/-- The scans that a balanced list may still replace never outnumber those recorded. -/
theorem exists_run (hops : FetchOp.balanced scans ops)
    (hscans : (scans : ℤ) ≤ s.outcome.coverage.scanned) (hobjects : ops.all FetchOp.NamesObject) :
    ∃ s' tail, s.run ops = some s' ∧
      s.outcome.coverage.Adds s'.outcome.coverage (weightOf ops) tail ∧
      s'.counts = s.counts + tallyOf ops ∧ 0 ≤ scans + weightOf ops .scanned := by
  induction ops generalizing s scans with
  | nil => exact ⟨s, [], rfl, .refl _, by simp [tallyOf], by simp [weightOf]⟩
  | cons op ops ih =>
      obtain ⟨hop, hobjects⟩ : op.NamesObject = true ∧ ops.all FetchOp.NamesObject = true := by
        simpa using hobjects
      -- the scans left after this operation, and how the balance moves with its weight
      obtain ⟨scans', hrest, hbalance, hroom⟩ : ∃ scans' : ℕ,
          FetchOp.balanced scans' ops = true ∧ (scans' : ℤ) = scans + op.weight .scanned ∧
          (∀ reason kind ref, op = .scannedButIncomplete reason kind ref → 1 ≤ scans) := by
        cases op with
        | scannedFor =>
            exact ⟨scans + 1, hops, by simp [FetchOp.weight, scannedWeight, observedWeight],
              by simp⟩
        | scannedButIncomplete reason kind ref =>
            cases scans with
            | zero => cases hops
            | succ scans =>
                exact ⟨scans, hops, by simp [FetchOp.weight, incompleteWeight, gapWeight], by simp⟩
        | skippedFor | failedFor | scopeGapFor | detected =>
            exact ⟨scans, by cases scans <;> exact hops,
              by simp [FetchOp.weight, skippedWeight, failedWeight, scopeGapWeight, observedWeight,
                gapWeight], by simp⟩
      obtain ⟨s₁, hs₁⟩ : ∃ s₁, op.apply s = some s₁ :=
        FetchOp.apply_isSome fun reason kind ref he => by
          have := hroom reason kind ref he
          omega
      obtain ⟨tail₁, hadds₁⟩ := FetchOp.adds hs₁ hop
      have hscanned : s₁.outcome.coverage.scanned =
          s.outcome.coverage.scanned + op.weight .scanned := congrFun hadds₁.totals .scanned
      obtain ⟨s', tail, hrun, hadds, hcounts, hpos⟩ := ih (s := s₁) hrest (by omega) hobjects
      refine ⟨s', tail₁ ++ tail, ?_, ?_, ?_, ?_⟩
      · rw [FetchTally.run_cons, hs₁]
        exact hrun
      · rw [weightOf_cons]
        exact hadds₁.trans hadds
      · rw [hcounts, FetchOp.counts_apply hs₁, tallyOf_cons, add_assoc]
      · rw [weightOf_cons, Pi.add_apply]
        omega

/-- Units run one after the other, and none of them lowers the number of scans. -/
theorem exists_run_units (units : List (UnitOps β)) (hscans : 0 ≤ s.outcome.coverage.scanned) :
    ∃ s' tail, s.run (opsOf units) = some s' ∧
      s.outcome.coverage.Adds s'.outcome.coverage (weightOf (opsOf units)) tail ∧
      s'.counts = s.counts + tallyOf (opsOf units) ∧ 0 ≤ weightOf (opsOf units) .scanned := by
  induction units generalizing s with
  | nil => exact ⟨s, [], rfl, .refl _, by simp [tallyOf, opsOf], by simp [weightOf, opsOf]⟩
  | cons u units ih =>
      obtain ⟨s₁, tail₁, hrun₁, hadds₁, hcounts₁, hpos₁⟩ :=
        exists_run (s := s) u.balanced (by simpa using hscans) u.objects
      have hscanned : s₁.outcome.coverage.scanned =
          s.outcome.coverage.scanned + weightOf u.ops .scanned :=
        congrFun hadds₁.totals .scanned
      obtain ⟨s', tail, hrun, hadds, hcounts, hpos⟩ := ih (s := s₁) (by push_cast at hpos₁; omega)
      have hops : opsOf (u :: units) = u.ops ++ opsOf units := rfl
      refine ⟨s', tail₁ ++ tail, ?_, ?_, ?_, ?_⟩
      · rw [hops, FetchTally.run_append, hrun₁]
        exact hrun
      · rw [hops, weightOf_append]
        exact hadds₁.trans hadds
      · rw [hops, hcounts, hcounts₁, tallyOf, tallyOf, tallyOf, List.map_append, List.sum_append,
          add_assoc]
      · rw [hops, weightOf_append, Pi.add_apply]
        push_cast at hpos₁
        omega

end Run

section Delta
variable {c c' : TaskCoverage β} {w : Totals} {tail : List CoverageGap}

/-- What the accumulator of a fetch keeps at every boundary. -/
structure TaskCoverage.AtBoundary (c : TaskCoverage β) : Prop where
  phase : c.phase = .fetch
  requested : c.scopeRequested = none
  scanned : 0 ≤ c.scanned
  reasons : 0 ≤ c.reasonCounts
  capped : c.gaps.length ≤ maxCoverageGapReferences

theorem TaskCoverage.rendered_asPayload (c : TaskCoverage β) : c.asPayload.Rendered :=
  .of_entries rfl

theorem TaskCoverage.AtBoundary.start
    (referenceKey : Option (CoverageObjectKind → β → GapReference)) :
    (FetchOutcome.start referenceKey : FetchOutcome β χ ρ).coverage.AtBoundary :=
  ⟨rfl, rfl, le_rfl, le_rfl, Nat.zero_le _⟩

theorem TaskCoverage.AtBoundary.adds (hc : c.AtBoundary) (h : c.Adds c' w tail) (hw : Reconciled w)
    (hscanned : 0 ≤ w .scanned) : c'.AtBoundary where
  phase := h.phase.trans hc.phase
  requested := h.requested.trans hc.requested
  scanned := by
    have he : c'.scanned = c.scanned + w .scanned := congrFun h.totals .scanned
    rw [he]
    exact add_nonneg hc.scanned hscanned
  reasons := by
    intro k
    have he : c'.reasonCounts k = c.reasonCounts k + w (.reason k) := congrFun h.totals (.reason k)
    rw [he]
    exact add_nonneg (hc.reasons k) (hw.reason_nonneg k)
  capped := h.capped hc.capped

theorem TaskCoverage.Adds.extends (hc : c.AtBoundary) (h : c.Adds c' w tail) (hw : Reconciled w) :
    c'.asPayload.Extends c.asPayload := by
  apply TaskCoverage.Extends.asPayload _ hc.reasons
  constructor
  · intro k
    have he : c'.reasonCounts k = c.reasonCounts k + w (.reason k) := congrFun h.totals (.reason k)
    rw [he]
    exact le_add_of_nonneg_right (hw.reason_nonneg k)
  · rw [h.gaps]
    exact List.prefix_append _ _

/-- What the delta of two boundaries adds up to. -/
theorem TaskCoverage.Adds.totals_delta (hc : c.AtBoundary) (h : c.Adds c' w tail)
    (hw : Reconciled w)
    (hscanned : 0 ≤ w .scanned) : (coverageDelta c'.asPayload c.asPayload).totals = w := by
  rw [totals_coverageDelta (h.extends hc hw),
    TaskCoverage.totals_asPayload (hc.adds h hw hscanned).reasons,
    TaskCoverage.totals_asPayload hc.reasons, h.totals, add_sub_cancel_left]

theorem log_coverageDelta (p sent : CoveragePayload) :
    (coverageDelta p sent).log = p.log.diff sent.log := rfl

/-- A payload passes every validator of a fetch report when its totals reconcile and its
references are among what its reasons count. -/
theorem CoveragePayload.valid_of_reconciled {p : CoveragePayload} (hp : Reconciled p.totals)
    (hrendered : p.Rendered) (hversion : p.version = "1") (hphase : p.phase = .fetch)
    (hrequested : p.scope.requested = none) (hscanned : 0 ≤ p.counts.scanned)
    (hgaps : ∀ g ∈ p.gaps, g.Valid) (hcapped : p.gaps.length ≤ maxCoverageGapReferences)
    (homitted : 0 ≤ p.gapsOmitted)
    (hbounded : ∀ k, gapTotal p.gaps k ≤ reasonTotal p.reasons k) : p.Valid := by
  have hsum : ∀ d, outcomeTotal p.reasons d = reasonSum p.totals d := outcomeTotal_eq_sum _
  exact
    { version := hversion
      counts := hp.counts_valid hscanned
      scope := by
        apply (CoverageScope.valid_iff _).2
        exact ⟨hp.scopeDiscovered, hp.scopeGaps_nonneg, Or.inl hrequested⟩
      reasons := by
        intro e he
        rw [hrendered] at he
        exact hp.entries_valid (fun _ => rfl) he
      gaps := hgaps
      gaps_length := hcapped
      gapsOmitted_nonneg := homitted
      keys_unique := by
        rw [hrendered]
        exact reasonEntries_keys_nodup _
      skipped_total := (hsum _).trans hp.skipped
      failed_total := (hsum _).trans hp.failed
      scopeGap_total := (hsum _).trans hp.scopeGaps
      gap_count := hp.references
      gap_matched := by
        intro g hg
        apply exists_entry_of_reasonTotal_pos
        have hone : 0 < gapTotal p.gaps g.key := by
          rw [gapTotal]
          exact_mod_cast List.countP_pos_iff.2 ⟨g, hg, by simp⟩
        exact hone.trans_le (hbounded g.key)
      gap_bounded := fun g _ => hbounded g.key
      discovery_objects := by
        rw [hphase]
        intro h
        cases h }

theorem TaskCoverage.Adds.valid_delta (hc : c.AtBoundary) (h : c.Adds c' w tail) (hw : Reconciled w)
    (hscanned : 0 ≤ w .scanned) : (coverageDelta c'.asPayload c.asPayload).Valid := by
  have htotals := h.totals_delta hc hw hscanned
  have hc' := hc.adds h hw hscanned
  have hgaps : (coverageDelta c'.asPayload c.asPayload).gaps = tail := by
    simp only [coverageDelta, TaskCoverage.asPayload]
    rw [h.gaps, List.drop_left]
  have hreason : ∀ k, reasonTotal (coverageDelta c'.asPayload c.asPayload).reasons k =
      w (.reason k) := fun k => congrFun htotals (.reason k)
  apply CoveragePayload.valid_of_reconciled
  · rw [htotals]
    exact hw
  · exact .of_entries rfl
  · rfl
  · exact hc'.phase
  · simp [coverageDelta, TaskCoverage.asPayload, hc'.requested]
  · exact hscanned.trans_eq (congrFun htotals .scanned).symm
  · rw [hgaps]
    exact h.valid
  · have hle := hc'.capped
    rw [hgaps]
    rw [h.gaps, List.length_append] at hle
    omega
  · have href := congrFun htotals .references
    have hcounted := h.counted
    simp only [CoveragePayload.totals, hgaps] at href
    omega
  · intro k
    rw [hgaps, hreason]
    exact h.bounded k

theorem TaskCoverage.Adds.merge_delta (hc : c.AtBoundary) (h : c.Adds c' w tail) (hw : Reconciled w)
    (hscanned : 0 ≤ w .scanned) (hvalid : c.asPayload.Valid) :
    mergePayload c.asPayload (coverageDelta c'.asPayload c.asPayload) = c'.asPayload := by
  have hc' := hc.adds h hw hscanned
  apply CoveragePayload.eq_of_totals (rendered_mergePayload _ _) c'.rendered_asPayload
  · rfl
  · exact h.phase.symm
  · simp [mergePayload, TaskCoverage.asPayload, hc.requested, hc'.requested, mergeRequested]
  · rw [totals_mergePayload hvalid (h.valid_delta hc hw hscanned), h.totals_delta hc hw hscanned,
      TaskCoverage.totals_asPayload hc.reasons, TaskCoverage.totals_asPayload hc'.reasons, h.totals]
  · have hinitial : c.gaps <+: c'.gaps := h.gaps ▸ List.prefix_append _ _
    rw [log_mergePayload, log_coverageDelta]
    exact CappedLog.append_diff hinitial hc'.capped

/-- Nothing was sent before the first batch, which is therefore the payload itself. -/
theorem coverageDelta_start {p : CoveragePayload} (hp : p.Rendered)
    (hreasons : ∀ k, 0 ≤ reasonTotal p.reasons k) :
    coverageDelta p (FetchOutcome.start none : FetchOutcome β χ ρ).asCoverage = p := by
  have hstart : (FetchOutcome.start none : FetchOutcome β χ ρ).asCoverage.totals = 0 := by
    rw [FetchOutcome.asCoverage, TaskCoverage.totals_asPayload le_rfl]
    funext i
    cases i <;> rfl
  apply CoveragePayload.eq_of_totals (.of_entries rfl) hp
  · rfl
  · rfl
  · cases hr : p.scope.requested <;>
      simp [coverageDelta, hr, FetchOutcome.asCoverage, FetchOutcome.start, TaskCoverage.asPayload]
  · rw [totals_coverageDelta, hstart, sub_zero]
    constructor
    · intro k
      exact (congrFun hstart (.reason k)).le.trans (hreasons k)
    · exact Nat.zero_le _
  · apply CappedLog.ext
    · rfl
    · exact sub_zero _

end Delta

/-- The units up to one cut, with what its batch carries besides their coverage. -/
structure Slice (κ β χ : Type) where
  units : List (UnitOps β)
  checkpoint : χ
  candidates : ℕ
  findings : List κ
  suppressed : ℕ

def sliceOps (slices : List (Slice κ β χ)) : List (FetchOp β) :=
  opsOf (slices.flatMap Slice.units)

/-- The batcher of a fresh attempt: the API has accepted nothing of it. -/
def Batcher.fresh (rulepackVersion : Option String) (sequence : ℕ) (deadline : ℚ) :
    Batcher κ χ where
  rulepackVersion
  sequence
  sentCoverage := (FetchOutcome.start none : FetchOutcome Unit χ Unit).asCoverage
  deadline

def FetchTally.boundary (s : FetchTally β χ ρ) (candidates : ℕ) : Boundary where
  candidates
  coverage := s.outcome.asCoverage
  counts := s.counts

/-- Run each slice, compose its batch from the boundary at its end, and advance the ledger
by what the API confirmed. -/
def ship (b : Batcher κ χ) (s : FetchTally β χ ρ) :
    List (Slice κ β χ) → Option (List (Batch κ χ) × Batcher κ χ × FetchTally β χ ρ)
  | [] => some ([], b, s)
  | slice :: slices =>
      (s.run (opsOf slice.units)).bind fun s' =>
        let batch := b.compose (s'.boundary slice.candidates) slice.checkpoint slice.findings
          slice.suppressed
        (ship (b.acknowledge batch batch.payload.sequence) s' slices).map fun sent =>
          (batch :: sent.1, sent.2)

/-- The batch of a slice is what the slice added to the snapshot at the cut before it. -/
def Slice.Ships (slice : Slice κ β χ) (s s' : FetchTally β χ ρ) (batch : Batch κ χ) : Prop :=
  batch.payload.coverage = some (coverageDelta s'.outcome.asCoverage s.outcome.asCoverage) ∧
    batch.payload.counts = Batcher.deltaCounts s'.counts s.counts slice.suppressed

theorem Batcher.acknowledge_self (b : Batcher κ χ) (batch : Batch κ χ) :
    b.acknowledge batch batch.payload.sequence =
      { b with
        sequence := batch.payload.sequence
        flushedCheckpoint := some batch.checkpoint
        sentCoverage := batch.coverage
        sentCounts := batch.counts
        sentCandidates := batch.covered
        pending := none
        inFlight := none } := if_neg (lt_irrefl _)

theorem sliceOps_cons (slice : Slice κ β χ) (slices : List (Slice κ β χ)) :
    sliceOps (slice :: slices) = opsOf slice.units ++ sliceOps slices := by
  simp [sliceOps, opsOf]

/-- Every slice is shipped once, as the difference between the snapshots at its two cuts. -/
theorem ship_cuts {slices : List (Slice κ β χ)} {b b' : Batcher κ χ} {s s' : FetchTally β χ ρ}
    {batches : List (Batch κ χ)} (hcoverage : b.sentCoverage = s.outcome.asCoverage)
    (hcounts : b.sentCounts = s.counts) (h : ship b s slices = some (batches, b', s')) :
    batches.length = slices.length ∧ ∀ i (hi : i < slices.length), ∃ before after batch,
      s.run (sliceOps (slices.take i)) = some before ∧
      s.run (sliceOps (slices.take (i + 1))) = some after ∧
      batches[i]? = some batch ∧ slices[i].Ships before after batch := by
  induction slices generalizing b s batches with
  | nil =>
      cases Option.some.inj h
      exact ⟨rfl, fun i hi => absurd hi (Nat.not_lt_zero i)⟩
  | cons slice slices ih =>
      obtain ⟨s₁, hrun, hrest⟩ := Option.bind_eq_some_iff.1 h
      obtain ⟨⟨batches', b₁, s₂⟩, hship, hsent⟩ := Option.map_eq_some_iff.1 hrest
      cases hsent
      rw [Batcher.acknowledge_self] at hship
      obtain ⟨hlength, hcuts⟩ := ih (by rfl) (by rfl) hship
      refine ⟨congrArg (· + 1) hlength, fun i hi => ?_⟩
      cases i with
      | zero =>
          refine ⟨s, s₁, _, rfl, ?_, rfl, ?_, ?_⟩
          · rw [List.take_succ_cons, List.take_zero, sliceOps_cons]
            simpa [sliceOps, opsOf] using hrun
          · exact congrArg (fun sent => some (coverageDelta s₁.outcome.asCoverage sent)) hcoverage
          · exact congrArg (Batcher.deltaCounts s₁.counts · slice.suppressed) hcounts
      | succ i =>
          obtain ⟨before, after, batch, hbefore, hafter, hbatch, hships⟩ :=
            hcuts i (Nat.lt_of_succ_lt_succ hi)
          refine ⟨before, after, batch, ?_, ?_, hbatch, hships⟩
          · rw [List.take_succ_cons, sliceOps_cons, FetchTally.run_append, hrun]
            exact hbefore
          · rw [List.take_succ_cons, sliceOps_cons, FetchTally.run_append, hrun]
            exact hafter

/-- The coverage of the terminal report, with the task-wide gap a handler recorded. -/
def terminalCoverage (c : TaskCoverage β) :
    Option (AllowedReason .scopeGap × Option β) → TaskCoverage β
  | none => c
  | some (reason, ref) => c.scopeGap reason ref

def mergeReports (stored : Option TaskCoverageReport) :
    List TaskCoverageReport → Option (Option TaskCoverageReport)
  | [] => some stored
  | delta :: deltas => (mergeTaskReport stored delta).bind fun m => mergeReports (some m) deltas

/-- The report stored at a boundary holds all that was accounted for up to it. -/
def Holds (stored : Option TaskCoverageReport) (p : CoveragePayload) : Prop :=
  stored.elim ((FetchOutcome.start none : FetchOutcome Unit Unit Unit).asCoverage = p)
    fun r => r.payload = p

theorem exists_merge_delta {c c' : TaskCoverage β} {w : Totals} {tail : List CoverageGap}
    {stored : Option TaskCoverageReport} (hc : c.AtBoundary) (h : c.Adds c' w tail)
    (hw : Reconciled w) (hscanned : 0 ≤ w .scanned) (hstored : Holds stored c.asPayload) :
    ∃ delta merged : TaskCoverageReport,
      delta.payload = coverageDelta c'.asPayload c.asPayload ∧
      mergeTaskReport stored delta = some merged ∧ merged.payload = c'.asPayload := by
  have hvalid := h.valid_delta hc hw hscanned
  cases stored with
  | none =>
      refine ⟨⟨_, hvalid⟩, ⟨_, hvalid⟩, rfl, rfl, ?_⟩
      have hzero : (FetchOutcome.start none : FetchOutcome Unit Unit Unit).asCoverage =
          c.asPayload := hstored
      have hc' := hc.adds h hw hscanned
      change coverageDelta c'.asPayload c.asPayload = c'.asPayload
      rw [← hzero]
      apply coverageDelta_start c'.rendered_asPayload
      intro k
      exact (hc'.reasons k).trans_eq (reasonTotal_reasonEntries_of_nonneg (hc'.reasons k)).symm
  | some r =>
      have hr : r.payload = c.asPayload := hstored
      have hphase : r.payload.phase = (coverageDelta c'.asPayload c.asPayload).phase := by
        rw [hr]
        exact h.phase.symm
      obtain ⟨merged, hmerge, hpayload⟩ := exists_mergeTaskReport (s := ⟨_, hvalid⟩) hphase
      refine ⟨⟨_, hvalid⟩, merged, rfl, hmerge, ?_⟩
      rw [hpayload, hr]
      exact h.merge_delta hc hw hscanned (hr ▸ r.valid)

theorem mergeReports_append (stored : Option TaskCoverageReport)
    (deltas deltas' : List TaskCoverageReport) :
    mergeReports stored (deltas ++ deltas') =
      (mergeReports stored deltas).bind fun m => mergeReports m deltas' := by
  induction deltas generalizing stored with
  | nil => rfl
  | cons delta deltas ih =>
      rw [List.cons_append, mergeReports, mergeReports]
      cases mergeTaskReport stored delta with
      | none => rfl
      | some m => exact ih (some m)

def shippedCounts (batches : List (Batch κ χ)) (last : Counts) : List Counts :=
  batches.map (fun batch => batch.payload.counts) ++ [last]

theorem deltaCounts_of_add {counts sent : Counts} {t : Counts} (h : counts = sent + t)
    (ht : 0 ≤ t) (suppressed : ℕ) :
    0 ≤ Batcher.deltaCounts counts sent suppressed ∧
      ∀ k, k ≠ .prefiltered → Batcher.deltaCounts counts sent suppressed k = t k := by
  have hkey : ∀ k, k ≠ .prefiltered → Batcher.deltaCounts counts sent suppressed k = t k := by
    intro k hk
    cases k <;> simp_all [Batcher.deltaCounts]
  refine ⟨fun k => ?_, hkey⟩
  by_cases hk : k = .prefiltered
  · rw [hk]
    exact Int.natCast_nonneg suppressed
  · exact (ht k).trans_eq (hkey k hk).symm

/-- What shipping the slices leaves behind: the trajectory so far, batches that are all
reports, and a ledger and a stored report that agree on what was sent. -/
theorem exists_ship (slices : List (Slice κ β χ)) {b : Batcher κ χ} {s : FetchTally β χ ρ}
    {stored : Option TaskCoverageReport} (hs : s.outcome.coverage.AtBoundary)
    (hcoverage : b.sentCoverage = s.outcome.asCoverage) (hcounts : b.sentCounts = s.counts)
    (hstored : Holds stored s.outcome.asCoverage) :
    ∃ batches b' s' reports stored',
      ship b s slices = some (batches, b', s') ∧ s.run (sliceOps slices) = some s' ∧
      s'.outcome.coverage.AtBoundary ∧ b'.sentCoverage = s'.outcome.asCoverage ∧
      b'.sentCounts = s'.counts ∧ Holds stored' s'.outcome.asCoverage ∧
      batches.map (fun batch => batch.payload.coverage) =
        reports.map (fun r => some r.payload) ∧
      mergeReports stored reports = some stored' ∧
      (∀ batch ∈ batches, 0 ≤ batch.payload.counts) ∧
      ∀ k, k ≠ .prefiltered →
        s.counts k + (batches.map fun batch => batch.payload.counts k).sum = s'.counts k := by
  induction slices generalizing b s stored with
  | nil => exact ⟨[], b, s, [], stored, rfl, rfl, hs, hcoverage, hcounts, hstored, rfl, rfl,
      by simp, by simp⟩
  | cons slice slices ih =>
      obtain ⟨s₁, tail, hrun₁, hadds, htally, hscanned⟩ := exists_run_units slice.units hs.scanned
      have hw := reconciled_weightOf (opsOf slice.units)
      obtain ⟨delta, merged, hdelta, hmerge, hmerged⟩ :=
        exists_merge_delta hs hadds hw hscanned hstored
      let batch := b.compose (s₁.boundary slice.candidates) slice.checkpoint slice.findings
        slice.suppressed
      have hack := b.acknowledge_self batch
      obtain ⟨hnonneg, hkeys⟩ := deltaCounts_of_add htally (tallyOf_nonneg _) slice.suppressed
      have hholds : Holds (some merged) s₁.outcome.asCoverage := hmerged
      have hsent : (b.acknowledge batch batch.payload.sequence).sentCoverage =
          s₁.outcome.asCoverage := by
        rw [hack]
        rfl
      have hsentCounts : (b.acknowledge batch batch.payload.sequence).sentCounts = s₁.counts := by
        rw [hack]
        rfl
      obtain ⟨batches, b', s', reports, stored', hship, hrun, hsound, hcov', hcnt', hst', hreports,
        hmerge', hpos, hsum⟩ := ih (hs.adds hadds hw hscanned) hsent hsentCounts hholds
      refine ⟨batch :: batches, b', s', delta :: reports, stored', ?_, ?_, hsound, hcov', hcnt',
        hst', ?_, ?_, ?_, ?_⟩
      · simp only [ship, hrun₁, Option.bind_some]
        rw [hship]
        rfl
      · rw [sliceOps_cons, FetchTally.run_append, hrun₁]
        exact hrun
      · have hbatch : batch.payload.coverage =
            some (coverageDelta s₁.outcome.asCoverage b.sentCoverage) := rfl
        rw [List.map_cons, List.map_cons, hreports, hbatch, hcoverage, hdelta]
        rfl
      · rw [mergeReports, hmerge]
        exact hmerge'
      · intro x hx
        rcases List.mem_cons.1 hx with rfl | hx
        · change 0 ≤ Batcher.deltaCounts s₁.counts b.sentCounts slice.suppressed
          rw [hcounts]
          exact hnonneg
        · exact hpos x hx
      · intro k hk
        have hbatch : batch.payload.counts k = tallyOf (opsOf slice.units) k := by
          change Batcher.deltaCounts s₁.counts b.sentCounts slice.suppressed k = _
          rw [hcounts]
          exact hkeys k hk
        rw [List.map_cons, List.sum_cons, hbatch, ← add_assoc, ← hsum k hk, htally, Pi.add_apply]

theorem TaskCoverage.AtBoundary.adds_terminal {c : TaskCoverage β}
    (gap : Option (AllowedReason .scopeGap × Option β)) :
    ∃ w tail, c.Adds (terminalCoverage c gap) w tail ∧ Reconciled w ∧ 0 ≤ w .scanned := by
  cases gap with
  | none => exact ⟨0, [], .refl c, .zero, le_rfl⟩
  | some gap =>
      obtain ⟨tail, htail⟩ := TaskCoverage.Adds.scopeGap c gap.1 gap.2
      refine ⟨_, tail, htail, reconciled_scopeGap gap.1, ?_⟩
      simp [scopeGapWeight, gapWeight]

/-- However a fetch is cut between units, and whatever the handler of its exit records, each
slice is shipped as one batch and the rest as the terminal report, each the difference to the
cut before. All are reports the API admits, and merging them in order gives the coverage of
the whole fetch. Count deltas are non-negative and sum up. -/
theorem deltas_reassemble (referenceKey : Option (CoverageObjectKind → β → GapReference))
    (rulepackVersion : Option String) (sequence : ℕ) (deadline : ℚ)
    (slices : List (Slice κ β χ)) (rest : List (UnitOps β))
    (gap : Option (AllowedReason .scopeGap × Option β)) (suppressed : ℕ) :
    ∃ (batches : List (Batch κ χ)) (b : Batcher κ χ) (s final : FetchTally β χ ρ)
      (reports : List TaskCoverageReport) (merged : TaskCoverageReport),
      ship (.fresh rulepackVersion sequence deadline) (.start referenceKey) slices =
        some (batches, b, s) ∧
      (batches.length = slices.length ∧ ∀ i (hi : i < slices.length), ∃ before after batch,
        (FetchTally.start referenceKey : FetchTally β χ ρ).run (sliceOps (slices.take i)) =
          some before ∧
        (FetchTally.start referenceKey : FetchTally β χ ρ).run (sliceOps (slices.take (i + 1))) =
          some after ∧
        batches[i]? = some batch ∧ slices[i].Ships before after batch) ∧
      (FetchTally.start referenceKey : FetchTally β χ ρ).run (sliceOps slices) = some s ∧
      b.sentCoverage = s.outcome.asCoverage ∧ b.sentCounts = s.counts ∧
      s.run (opsOf rest) = some final ∧
      (FetchTally.start referenceKey : FetchTally β χ ρ).run (sliceOps slices ++ opsOf rest) =
        some final ∧
      batches.map (fun batch => batch.payload.coverage) ++
          [some (coverageDelta (terminalCoverage final.outcome.coverage gap).asPayload
            b.sentCoverage)] =
        reports.map (fun r => some r.payload) ∧
      mergeReports none reports = some (some merged) ∧
      merged.payload = (terminalCoverage final.outcome.coverage gap).asPayload ∧
      (∀ counts ∈ shippedCounts batches
        (Batcher.deltaCounts final.counts b.sentCounts suppressed), 0 ≤ counts) ∧
      ∀ k, k ≠ .prefiltered → ((shippedCounts batches
        (Batcher.deltaCounts final.counts b.sentCounts suppressed)).map fun counts =>
          counts k).sum = final.counts k := by
  have hcoverage : (Batcher.fresh rulepackVersion sequence deadline : Batcher κ χ).sentCoverage =
      (FetchTally.start referenceKey : FetchTally β χ ρ).outcome.asCoverage := rfl
  have hstart : (Batcher.fresh rulepackVersion sequence deadline : Batcher κ χ).sentCounts =
      (FetchTally.start referenceKey : FetchTally β χ ρ).counts := by
    funext k
    cases k <;> rfl
  have hstored : Holds none (FetchTally.start referenceKey : FetchTally β χ ρ).outcome.asCoverage :=
    rfl
  obtain ⟨batches, b, s, reports, stored, hship, hrun, hsound, hcoverage, hcounts, hstored,
    hreports, hmerge, hpos, hsum⟩ :=
      exists_ship slices (.start referenceKey) hcoverage hstart hstored
  obtain ⟨final, tail, hrest, hadds, htally, hscanned⟩ := exists_run_units rest hsound.scanned
  obtain ⟨w, tail', hterminal, hw, hw'⟩ :=
    TaskCoverage.AtBoundary.adds_terminal (c := final.outcome.coverage) gap
  obtain ⟨delta, merged, hdelta, hlast, hmerged⟩ :=
    exists_merge_delta hsound (hadds.trans hterminal) ((reconciled_weightOf _).add hw)
      (add_nonneg hscanned hw') hstored
  obtain ⟨hnonneg, hkeys⟩ := deltaCounts_of_add htally (tallyOf_nonneg _) suppressed
  refine ⟨batches, b, s, final, reports ++ [delta], merged, hship, ship_cuts rfl hstart hship,
    hrun, hcoverage, hcounts, hrest, ?_, ?_, ?_, hmerged, ?_, ?_⟩
  · rw [FetchTally.run_append, hrun]
    exact hrest
  · rw [hreports, List.map_append, hcoverage, List.map_singleton, hdelta]
    rfl
  · rw [mergeReports_append, hmerge]
    simp [mergeReports, hlast]
  · intro counts hmem
    rw [hcounts] at hmem
    rcases List.mem_append.1 hmem with hmem | hmem
    · obtain ⟨batch, hbatch, rfl⟩ := List.mem_map.1 hmem
      exact hpos batch hbatch
    · rw [List.mem_singleton.1 hmem]
      exact hnonneg
  · intro k hk
    have hzero : (FetchTally.start referenceKey : FetchTally β χ ρ).counts k = 0 := by
      cases k <;> rfl
    have hbatches := hsum k hk
    rw [hzero, zero_add] at hbatches
    rw [shippedCounts, List.map_append, List.sum_append, List.map_map, hcounts, List.map_singleton,
      List.sum_singleton, hkeys k hk, htally, Pi.add_apply, ← hbatches]
    rfl

end IcebergSST
