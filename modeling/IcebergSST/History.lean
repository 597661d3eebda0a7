import IcebergSST.Library.Bookmark
import IcebergSST.Runner
import Mathlib.Data.List.DropRight

/-!
# What a list of connector events amounts to

The loop's accumulators are functions of the events it has processed. `candidatesOf`,
`coverageOf` and `countsOf` are these functions, `totalsOf` is what the coverage adds
up to, `cut` is the part of a history that ends at its last unit, and `before` the
part that lies before a checkpoint.
-/

namespace IcebergSST

variable {κ β χ ρ : Type}

namespace ConnectorEvent

def IsUnit : ConnectorEvent κ β χ ρ → Bool
  | .yield _ => true
  | _ => false

/-- The checkpoint an event publishes, the bookmark a later attempt may resume at. -/
def published : ConnectorEvent κ β χ ρ → Option χ
  | .checkpointAt c => some c
  | _ => none

def candidates : ConnectorEvent κ β χ ρ → List κ
  | .yield u => u.candidates
  | _ => []

/-- The disposition an event records with a reason. A unit whose detection was
truncated becomes a failed object, unless the connector had already marked it. -/
def recorded : ConnectorEvent κ β χ ρ → Option ReasonKey
  | .skippedFor reason _ _ => some (.skipped, reason)
  | .failedFor reason _ _ => some (.failed, reason)
  | .scopeGapFor reason _ => some (.scopeGap, reason)
  | .yield u => if u.truncated ∧ ¬ u.displayTruncated then some (.failed, .outputLimit) else none
  | _ => none

def cover (c : TaskCoverage β) : ConnectorEvent κ β χ ρ → Option (TaskCoverage β)
  | .scannedFor => some c.scannedFor
  | .skippedFor reason kind ref => some (c.skippedFor reason kind ref)
  | .failedFor reason kind ref => some (c.failedFor reason kind ref)
  | .scopeGapFor reason ref => some (c.scopeGap reason ref)
  | .yield u =>
      if u.truncated ∧ ¬ u.displayTruncated then
        c.scannedButIncomplete ⟨_, failed_outputLimit⟩ u.kind u.locator
      else some c
  | _ => some c

def weight : ConnectorEvent κ β χ ρ → Totals
  | .scannedFor => scannedWeight
  | .skippedFor reason _ _ => skippedWeight reason
  | .failedFor reason _ _ => failedWeight reason
  | .scopeGapFor reason _ => scopeGapWeight reason
  | .yield u => if u.truncated ∧ ¬ u.displayTruncated then incompleteWeight .outputLimit else 0
  | _ => 0

def tally : ConnectorEvent κ β χ ρ → Counts
  | .scannedFor => Pi.single .units 1
  | .skippedFor _ _ _ => Pi.single .unitsSkipped 1
  | .failedFor _ _ _ => Pi.single .unitsFailed 1
  | .scopeGapFor _ _ => Pi.single .unitsFailed 1
  | .yield u =>
      Pi.single .unitsTruncated (if u.truncated then 1 else 0) +
        Pi.single .droppedBelowThreshold (u.droppedBelowThreshold : ℤ)
  | _ => 0

/-- An event that accounts for nothing: a position or a cursor. -/
def Quiet : ConnectorEvent κ β χ ρ → Bool
  | .checkpointAt _ => true
  | .cursorAt _ => true
  | _ => false

theorem totals_cover {c c' : TaskCoverage β} {e : ConnectorEvent κ β χ ρ}
    (h : e.cover c = some c') : c'.totals = c.totals + e.weight := by
  cases e with
  | scannedFor => rw [← Option.some.inj h]; exact c.totals_scannedFor
  | skippedFor reason kind ref => rw [← Option.some.inj h]; exact c.totals_skippedFor _ _ _
  | failedFor reason kind ref => rw [← Option.some.inj h]; exact c.totals_failedFor _ _ _
  | scopeGapFor reason ref => rw [← Option.some.inj h]; exact c.totals_scopeGap _ _
  | yield u =>
      simp only [cover, weight] at h ⊢
      split_ifs at h ⊢
      · exact c.totals_scannedButIncomplete h
      · rw [← Option.some.inj h, add_zero]
  | checkpointAt | cursorAt => rw [← Option.some.inj h]; exact (add_zero _).symm

theorem cover_phase {c c' : TaskCoverage β} {e : ConnectorEvent κ β χ ρ}
    (h : e.cover c = some c') : c'.phase = c.phase := by
  have hgap : ∀ (c : TaskCoverage β) key kind ref, (c.gap key kind ref).phase = c.phase := by
    intro c key kind ref
    unfold TaskCoverage.gap
    cases c.reference kind ref with
    | none => rfl
    | some digest => dsimp only; split_ifs <;> rfl
  cases e with
  | skippedFor | failedFor | scopeGapFor => rw [← Option.some.inj h]; exact hgap _ _ _ _
  | yield u =>
      simp only [cover, TaskCoverage.scannedButIncomplete] at h
      split_ifs at h
      · rw [← Option.some.inj h]; exact hgap _ _ _ _
      · rw [← Option.some.inj h]
  | scannedFor => rw [← Option.some.inj h]; rfl
  | checkpointAt | cursorAt => rw [← Option.some.inj h]

theorem cover_extends {c c' : TaskCoverage β} {e : ConnectorEvent κ β χ ρ}
    (h : e.cover c = some c') : c'.Extends c := by
  have hgap : ∀ (c₀ : TaskCoverage β) key kind ref, c₀.Extends c →
      (c₀.gap key kind ref).Extends c :=
    fun c₀ key kind ref h₀ => (c₀.extends_gap key kind ref).trans h₀
  have hsame : ∀ c₀ : TaskCoverage β, c₀.reasonCounts = c.reasonCounts → c₀.gaps = c.gaps →
      c₀.Extends c := fun c₀ hr hg => ⟨hr.ge, hg ▸ List.prefix_rfl⟩
  cases e with
  | skippedFor | failedFor | scopeGapFor =>
      rw [← Option.some.inj h]
      exact hgap _ _ _ _ (hsame _ rfl rfl)
  | yield u =>
      simp only [cover, TaskCoverage.scannedButIncomplete] at h
      split_ifs at h
      · rw [← Option.some.inj h]; exact hgap _ _ _ _ (hsame _ rfl rfl)
      · rw [← Option.some.inj h]; exact .rfl
  | scannedFor | checkpointAt | cursorAt => rw [← Option.some.inj h]; exact hsame _ rfl rfl

/-- Among the reason subtotals, an event's weight is the disposition it records. -/
theorem weight_reason (e : ConnectorEvent κ β χ ρ) (k : ReasonKey) :
    e.weight (.reason k) = if e.recorded = some k then 1 else 0 := by
  have hgap : ∀ key : ReasonKey, gapWeight key (.reason k) = if key = k then 1 else 0 := by
    intro key
    by_cases hk : key = k
    · simp [gapWeight, hk]
    · simp [gapWeight, hk, Ne.symm hk]
  cases e with
  | yield u =>
      simp only [weight, recorded]
      split_ifs <;> simp_all [incompleteWeight]
  | skippedFor | failedFor | scopeGapFor =>
      simp [weight, recorded, skippedWeight, failedWeight, scopeGapWeight, observedWeight, hgap]
  | scannedFor | checkpointAt | cursorAt =>
      simp [weight, recorded, scannedWeight, observedWeight]

theorem Quiet.weight {e : ConnectorEvent κ β χ ρ} (h : e.Quiet) : e.weight = 0 := by
  cases e <;> first | rfl | cases h

theorem Quiet.tally {e : ConnectorEvent κ β χ ρ} (h : e.Quiet) : e.tally = 0 := by
  cases e <;> first | rfl | cases h

theorem tally_prefiltered (e : ConnectorEvent κ β χ ρ) : e.tally .prefiltered = 0 := by
  cases e <;> simp [tally]

theorem candidates_of_not_isUnit {e : ConnectorEvent κ β χ ρ} (h : e.IsUnit = false) :
    e.candidates = [] := by
  cases e <;> first | rfl | cases h

end ConnectorEvent

abbrev Events (κ β χ ρ : Type) := List (ConnectorEvent κ β χ ρ)

def candidatesOf (h : Events κ β χ ρ) : List κ := h.flatMap ConnectorEvent.candidates

def totalsOf (h : Events κ β χ ρ) : Totals := (h.map ConnectorEvent.weight).sum

def countsOf (h : Events κ β χ ρ) : Counts := (h.map ConnectorEvent.tally).sum

def recordedCount (k : ReasonKey) (h : Events κ β χ ρ) : ℕ :=
  h.countP (fun e => e.recorded = some k)

/-- The coverage accumulator after these events; `none` once a unit was truncated
that no scan had been recorded for. -/
def coverageOf (digest : CoverageObjectKind → β → GapReference) (h : Events κ β χ ρ) :
    Option (TaskCoverage β) :=
  h.foldlM (fun c e => e.cover c) { phase := .fetch, referenceKey := some digest }

section Append
variable (h h' : Events κ β χ ρ) (e : ConnectorEvent κ β χ ρ)

@[simp] theorem candidatesOf_append :
    candidatesOf (h ++ h') = candidatesOf h ++ candidatesOf h' := List.flatMap_append

@[simp] theorem candidatesOf_singleton : candidatesOf [e] = e.candidates := by
  simp [candidatesOf]

@[simp] theorem totalsOf_append : totalsOf (h ++ h') = totalsOf h + totalsOf h' := by
  simp [totalsOf]

@[simp] theorem totalsOf_singleton : totalsOf [e] = e.weight := by
  simp [totalsOf]

@[simp] theorem countsOf_append : countsOf (h ++ h') = countsOf h + countsOf h' := by
  simp [countsOf]

@[simp] theorem countsOf_singleton : countsOf [e] = e.tally := by
  simp [countsOf]

theorem coverageOf_append_singleton (digest : CoverageObjectKind → β → GapReference) :
    coverageOf digest (h ++ [e]) = (coverageOf digest h).bind e.cover := by
  simp [coverageOf, List.foldlM_append]

end Append

theorem countsOf_prefiltered (h : Events κ β χ ρ) : countsOf h .prefiltered = 0 := by
  induction h with
  | nil => rfl
  | cons e h ih =>
      rw [← List.singleton_append, countsOf_append, Pi.add_apply, ih, countsOf_singleton,
        e.tally_prefiltered, add_zero]

theorem totalsOf_reason (h : Events κ β χ ρ) (k : ReasonKey) :
    totalsOf h (.reason k) = recordedCount k h := by
  induction h with
  | nil => rfl
  | cons e h ih =>
      have hone := e.weight_reason k
      rw [← List.singleton_append, totalsOf_append, Pi.add_apply, ih, totalsOf_singleton, hone,
        recordedCount, recordedCount, List.countP_append, List.countP_singleton]
      split_ifs <;> simp_all

section Coverage
variable {digest : CoverageObjectKind → β → GapReference} {h h' : Events κ β χ ρ}
  {c c' : TaskCoverage β}

theorem coverageOf_initial (hc : coverageOf digest h = some c) (hp : h' <+: h) :
    ∃ c', coverageOf digest h' = some c' ∧ c.Extends c' := by
  induction h using List.reverseRecOn generalizing c with
  | nil =>
      obtain rfl := List.prefix_nil.1 hp
      exact ⟨c, hc, .rfl⟩
  | append_singleton h e ih =>
      rcases List.prefix_concat_iff.1 hp with rfl | hp
      · exact ⟨c, hc, .rfl⟩
      · rw [coverageOf_append_singleton] at hc
        obtain ⟨c₀, hc₀, he⟩ := Option.bind_eq_some_iff.1 hc
        obtain ⟨c', hc', hext⟩ := ih hc₀ hp
        exact ⟨c', hc', (ConnectorEvent.cover_extends he).trans hext⟩

theorem coverageOf_reasonCounts_nonneg (hc : coverageOf digest h = some c) :
    0 ≤ c.reasonCounts := by
  obtain ⟨c', hc', hext⟩ := coverageOf_initial hc (List.nil_prefix)
  obtain rfl := Option.some.inj hc'
  exact hext.reasons

theorem coverageOf_phase (hc : coverageOf digest h = some c) : c.phase = .fetch := by
  induction h using List.reverseRecOn generalizing c with
  | nil => rw [← Option.some.inj hc]
  | append_singleton h e ih =>
      rw [coverageOf_append_singleton] at hc
      obtain ⟨c₀, hc₀, he⟩ := Option.bind_eq_some_iff.1 hc
      exact (ConnectorEvent.cover_phase he).trans (ih hc₀)

theorem totals_of_coverageOf (hc : coverageOf digest h = some c) :
    c.asPayload.totals = totalsOf h := by
  rw [TaskCoverage.totals_asPayload (coverageOf_reasonCounts_nonneg hc)]
  induction h using List.reverseRecOn generalizing c with
  | nil =>
      rw [← Option.some.inj hc]
      funext i
      cases i <;> rfl
  | append_singleton h e ih =>
      rw [coverageOf_append_singleton] at hc
      obtain ⟨c₀, hc₀, he⟩ := Option.bind_eq_some_iff.1 hc
      rw [ConnectorEvent.totals_cover he, ih hc₀, totalsOf_append, totalsOf_singleton]

theorem coverageOf_payload_extends (hc : coverageOf digest h = some c)
    (hc' : coverageOf digest h' = some c') (hp : h' <+: h) :
    c.asPayload.Extends c'.asPayload := by
  obtain ⟨c₀, hc₀, hext⟩ := coverageOf_initial hc hp
  obtain rfl := Option.some.inj (hc'.symm.trans hc₀)
  exact hext.asPayload (coverageOf_reasonCounts_nonneg hc')

end Coverage

/-- The history up to and including its last unit. -/
def cut (h : Events κ β χ ρ) : Events κ β χ ρ :=
  h.rdropWhile (fun e => !e.IsUnit)

/-- The events that lie before a checkpoint: those before its first publication. -/
def before [DecidableEq χ] (c : χ) (h : Events κ β χ ρ) : Events κ β χ ρ :=
  Bookmark.before ConnectorEvent.published c h

theorem cut_initial (h : Events κ β χ ρ) : cut h <+: h := List.rdropWhile_prefix _ _

theorem cut_append_unit (h : Events κ β χ ρ) (u : ContentUnit κ β) :
    cut (h ++ [.yield u]) = h ++ [.yield u] :=
  List.rdropWhile_concat_neg _ _ _ (by simp [ConnectorEvent.IsUnit])

theorem cut_append_of_not_isUnit (h : Events κ β χ ρ) {e : ConnectorEvent κ β χ ρ}
    (he : e.IsUnit = false) : cut (h ++ [e]) = cut h :=
  List.rdropWhile_concat_pos _ _ _ (by simp [he])

theorem cut_mono {h h' : Events κ β χ ρ} (hp : h <+: h') : cut h <+: cut h' := by
  induction h' using List.reverseRecOn with
  | nil => rw [List.prefix_nil.1 hp]
  | append_singleton h' e ih =>
      rcases List.prefix_concat_iff.1 hp with rfl | hp
      · exact List.prefix_rfl
      · cases he : e.IsUnit with
        | true =>
            cases e with
            | yield u =>
                rw [cut_append_unit]
                exact (cut_initial h).trans hp
            | _ => cases he
        | false =>
            rw [cut_append_of_not_isUnit h' he]
            exact ih hp

theorem candidatesOf_cut (h : Events κ β χ ρ) : candidatesOf (cut h) = candidatesOf h := by
  induction h using List.reverseRecOn with
  | nil => rfl
  | append_singleton h e ih =>
      cases he : e.IsUnit with
      | true =>
          cases e with
          | yield u => rw [cut_append_unit]
          | _ => cases he
      | false =>
          rw [cut_append_of_not_isUnit h he, ih, candidatesOf_append, candidatesOf_singleton,
            e.candidates_of_not_isUnit he, List.append_nil]

section Before
variable [DecidableEq χ] {c : χ} {h h' : Events κ β χ ρ}

theorem before_initial : before c h <+: h := Bookmark.before_initial

omit [DecidableEq χ] in
theorem occurs_published (hc : ConnectorEvent.checkpointAt c ∈ h) :
    Bookmark.Occurs ConnectorEvent.published c h := ⟨_, hc, rfl⟩

theorem before_eq_of_prefix (hc : ConnectorEvent.checkpointAt c ∈ h) (hp : h <+: h') :
    before c h' = before c h :=
  (occurs_published hc).before_eq hp

end Before

end IcebergSST
