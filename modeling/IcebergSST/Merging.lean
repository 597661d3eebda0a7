import IcebergSST.Library.CappedLog
import IcebergSST.Outcome

/-!
# The algebra of merged coverage

Reports of one phase form a semigroup under `mergeTaskReport`: what the merge builds
always passes the constructor, and batches may be grouped in any way. The references
kept under the cap are a capped log, the rest of a report is its integer vector.
-/

namespace IcebergSST

/-- The references of a payload, with the ones it only counts. -/
def CoveragePayload.log (p : CoveragePayload) : CappedLog CoverageGap := ⟨p.gaps, p.gapsOmitted⟩

/-- Reasons in the order and form in which `as_payload` and the merge write them. -/
def CoveragePayload.Rendered (p : CoveragePayload) : Prop :=
  p.reasons = reasonEntries (reasonTotal p.reasons)

theorem reasonEntries_congr {f g : ReasonKey → ℤ} (h : ∀ k, max (f k) 0 = max (g k) 0) :
    reasonEntries f = reasonEntries g := by
  have hpos : ∀ k, decide (0 < f k) = decide (0 < g k) := by
    intro k
    have hk := h k
    apply decide_eq_decide.2
    omega
  unfold reasonEntries
  simp only [hpos]
  apply List.map_congr_left
  intro k hk
  have hg : 0 < g k := by simpa using (List.mem_filter.1 hk).2
  have hf := h k
  congr 1
  omega

theorem CoveragePayload.Rendered.of_entries {p : CoveragePayload} {f : ReasonKey → ℤ}
    (hp : p.reasons = reasonEntries f) : p.Rendered := by
  unfold Rendered
  rw [hp]
  apply reasonEntries_congr
  intro k
  rw [reasonTotal_reasonEntries]
  split_ifs <;> omega

/-- A rendered payload is determined by its totals and by what they do not see. -/
theorem CoveragePayload.eq_of_totals {p q : CoveragePayload} (hp : p.Rendered) (hq : q.Rendered)
    (hversion : p.version = q.version) (hphase : p.phase = q.phase)
    (hrequested : p.scope.requested = q.scope.requested) (htotals : p.totals = q.totals)
    (hlog : p.log = q.log) : p = q := by
  have hreasons : p.reasons = q.reasons := by
    rw [hp, hq]
    congr 1
    funext k
    exact congrFun htotals (.reason k)
  have h₁ := congrFun htotals .requested
  have h₂ := congrFun htotals .discovered
  have h₃ := congrFun htotals .scanned
  have h₄ := congrFun htotals .skipped
  have h₅ := congrFun htotals .failed
  have h₆ := congrFun htotals .scopeDiscovered
  have h₇ := congrFun htotals .scopeGaps
  rcases p with ⟨_, _, ⟨_, _, _, _, _⟩, ⟨_, _, _⟩, _, _, _⟩
  rcases q with ⟨_, _, ⟨_, _, _, _, _⟩, ⟨_, _, _⟩, _, _, _⟩
  simp_all [CoveragePayload.totals, CoveragePayload.log]

def reasonSum (t : Totals) (d : CoverageDisposition) : ℤ :=
  (reasonKeys.map fun k => if k.1 = d then t (.reason k) else 0).sum

/-- The equations between the counters of a report, or of several added up. -/
structure Reconciled (t : Totals) : Prop where
  requested : t .requested = t .discovered
  discovered : t .discovered = t .scanned + t .skipped + t .failed
  scopeDiscovered : 0 ≤ t .scopeDiscovered
  skipped : reasonSum t .skipped = t .skipped
  failed : reasonSum t .failed = t .failed
  scopeGaps : reasonSum t .scopeGap = t .scopeGaps
  references : t .references = t .skipped + t .failed + t .scopeGaps
  reason_nonneg : ∀ k, 0 ≤ t (.reason k)
  allowed : ∀ k, t (.reason k) ≠ 0 → coverageReasonAllowed k.1 k.2

theorem reasonSum_add (t u : Totals) (d : CoverageDisposition) :
    reasonSum (t + u) d = reasonSum t d + reasonSum u d := by
  unfold reasonSum
  rw [← List.sum_map_add]
  congr 1
  apply List.map_congr_left
  intro k _
  split_ifs <;> simp

theorem reasonSum_zero (d : CoverageDisposition) : reasonSum 0 d = 0 := by
  simp [reasonSum]

theorem reasonSum_single (key : ReasonKey) (d : CoverageDisposition) :
    reasonSum (Pi.single (.reason key) 1) d = if key.1 = d then 1 else 0 := by
  have hone := sum_map_ite_eq reasonKeys_nodup (fun k => if k.1 = d then (1 : ℤ) else 0) key
  rw [if_pos (mem_reasonKeys key)] at hone
  rw [← hone, reasonSum]
  congr 1
  apply List.map_congr_left
  intro k _
  by_cases hk : k = key
  · simp [hk]
  · simp [hk]

theorem reasonSum_of_reasons {t : Totals} (h : ∀ k, t (.reason k) = 0) (d : CoverageDisposition) :
    reasonSum t d = 0 := by
  simp [reasonSum, h]

theorem Reconciled.zero : Reconciled 0 := by
  constructor <;> simp [reasonSum_zero]

theorem Reconciled.add {t u : Totals} (ht : Reconciled t) (hu : Reconciled u) :
    Reconciled (t + u) where
  requested := by simp only [Pi.add_apply, ht.requested, hu.requested]
  discovered := by
    simp only [Pi.add_apply, ht.discovered, hu.discovered]
    ring
  scopeDiscovered := add_nonneg ht.scopeDiscovered hu.scopeDiscovered
  skipped := by rw [reasonSum_add, ht.skipped, hu.skipped, Pi.add_apply]
  failed := by rw [reasonSum_add, ht.failed, hu.failed, Pi.add_apply]
  scopeGaps := by rw [reasonSum_add, ht.scopeGaps, hu.scopeGaps, Pi.add_apply]
  references := by
    simp only [Pi.add_apply, ht.references, hu.references]
    ring
  reason_nonneg := fun k => add_nonneg (ht.reason_nonneg k) (hu.reason_nonneg k)
  allowed := by
    intro k hk
    by_cases h : t (.reason k) = 0
    · apply hu.allowed
      intro hz
      exact hk (by simp [h, hz])
    · exact ht.allowed k h

theorem reconciled_scanned : Reconciled scannedWeight := by
  constructor <;> simp [scannedWeight, observedWeight, reasonSum]

theorem reconciled_gap {key : ReasonKey} {base : Totals} (hkey : coverageReasonAllowed key.1 key.2)
    (hreason : ∀ k, base (.reason k) = 0) (hreferences : base .references = 0)
    (hrequested : base .requested = base .discovered)
    (hdiscovered : base .discovered = base .scanned + base .skipped + base .failed)
    (hscope : 0 ≤ base .scopeDiscovered)
    (hskipped : base .skipped = if key.1 = .skipped then 1 else 0)
    (hfailed : base .failed = if key.1 = .failed then 1 else 0)
    (hgaps : base .scopeGaps = if key.1 = .scopeGap then 1 else 0) :
    Reconciled (base + gapWeight key) := by
  have hsum : ∀ d, reasonSum (base + gapWeight key) d = if key.1 = d then 1 else 0 := by
    intro d
    rw [reasonSum_add, reasonSum_of_reasons hreason, gapWeight, reasonSum_add,
      reasonSum_of_reasons (by simp), reasonSum_single]
    simp
  constructor
  case references =>
    simp only [Pi.add_apply, hreferences, hskipped, hfailed, hgaps, gapWeight]
    rcases key with ⟨d, r⟩
    cases d <;> simp
  case allowed =>
    intro k hk
    by_cases h : k = key
    · rw [h]
      exact hkey
    · exact absurd (by simp [hreason, gapWeight, h]) hk
  case reason_nonneg =>
    intro k
    simp only [Pi.add_apply, hreason, gapWeight, zero_add]
    exact add_nonneg (by simp) (by by_cases h : k = key <;> simp [h])
  case skipped => rw [hsum]; simp [gapWeight, hskipped]
  case failed => rw [hsum]; simp [gapWeight, hfailed]
  case scopeGaps => rw [hsum]; simp [gapWeight, hgaps]
  case scopeDiscovered => simpa [gapWeight] using hscope
  all_goals simp [gapWeight, hrequested, hdiscovered]

theorem reconciled_skipped (reason : AllowedReason .skipped) :
    Reconciled (skippedWeight reason) := by
  apply reconciled_gap reason.2 <;> simp [observedWeight]

theorem reconciled_failed (reason : AllowedReason .failed) : Reconciled (failedWeight reason) := by
  apply reconciled_gap reason.2 <;> simp [observedWeight]

theorem reconciled_incomplete (reason : AllowedReason .failed) :
    Reconciled (incompleteWeight reason) := by
  apply reconciled_gap reason.2 <;> simp

theorem reconciled_scopeGap (reason : AllowedReason .scopeGap) :
    Reconciled (scopeGapWeight reason) := by
  apply reconciled_gap reason.2 <;> simp

theorem TaskCoverageReport.reconciled (r : TaskCoverageReport) : Reconciled r.totals where
  requested := r.valid.counts.requested_eq
  discovered := r.valid.counts.reconciles
  scopeDiscovered := r.valid.scope.discovered_nonneg
  skipped := (outcomeTotal_eq_sum _ _).symm.trans r.valid.skipped_total
  failed := (outcomeTotal_eq_sum _ _).symm.trans r.valid.failed_total
  scopeGaps := (outcomeTotal_eq_sum _ _).symm.trans r.valid.scopeGap_total
  references := r.valid.gap_count
  reason_nonneg := reasonTotal_nonneg r.valid.reasons
  allowed := by
    intro k hk
    have hpos : 0 < reasonTotal r.payload.reasons k :=
      lt_of_le_of_ne (reasonTotal_nonneg r.valid.reasons k) (Ne.symm hk)
    obtain ⟨e, he, rfl⟩ := exists_entry_of_reasonTotal_pos hpos
    exact (r.valid.reasons e he).2

section Reconciled
variable {t : Totals}

theorem reasonSum_nonneg (h : Reconciled t) (d : CoverageDisposition) : 0 ≤ reasonSum t d := by
  apply List.sum_nonneg
  intro x hx
  obtain ⟨k, _, rfl⟩ := List.mem_map.1 hx
  split_ifs
  · exact h.reason_nonneg k
  · exact le_rfl

theorem Reconciled.skipped_nonneg (h : Reconciled t) : 0 ≤ t .skipped :=
  (reasonSum_nonneg h .skipped).trans_eq h.skipped

theorem Reconciled.failed_nonneg (h : Reconciled t) : 0 ≤ t .failed :=
  (reasonSum_nonneg h .failed).trans_eq h.failed

theorem Reconciled.scopeGaps_nonneg (h : Reconciled t) : 0 ≤ t .scopeGaps :=
  (reasonSum_nonneg h .scopeGap).trans_eq h.scopeGaps

theorem Reconciled.counts_valid (h : Reconciled t) (hscanned : 0 ≤ t .scanned) :
    (⟨t .requested, t .discovered, t .scanned, t .skipped, t .failed⟩ : CoverageCounts).Valid := by
  have hskipped := h.skipped_nonneg
  have hfailed := h.failed_nonneg
  have hdiscovered := h.discovered
  have hrequested := h.requested
  exact ⟨by dsimp only; omega, by dsimp only; omega, hscanned, hskipped, hfailed, hrequested,
    hdiscovered⟩

theorem Reconciled.entries_valid (h : Reconciled t) {f : ReasonKey → ℤ}
    (hf : ∀ k, t (.reason k) = f k) {e : CoverageReasonCount} (he : e ∈ reasonEntries f) :
    e.Valid := by
  obtain ⟨hpos, hcount⟩ := mem_reasonEntries.1 he
  refine ⟨hcount ▸ hpos, h.allowed e.key ?_⟩
  rw [hf]
  exact hpos.ne'

end Reconciled

section Merge
variable {a b c : CoveragePayload}

theorem log_mergePayload (a b : CoveragePayload) :
    (mergePayload a b).log = a.log.append maxCoverageGapReferences b.log := rfl

theorem rendered_mergePayload (a b : CoveragePayload) : (mergePayload a b).Rendered :=
  .of_entries rfl

theorem mergeRequested_assoc (x y z : Option ℤ) :
    mergeRequested (mergeRequested x y) z = mergeRequested x (mergeRequested y z) := by
  cases x <;> cases y <;> cases z <;> simp [mergeRequested, add_assoc]

theorem mergeRequested_eq_some {x y : Option ℤ} {r : ℤ} :
    mergeRequested x y = some r ↔ ∃ u v, x = some u ∧ y = some v ∧ r = u + v := by
  cases x <;> cases y <;> simp [mergeRequested, eq_comm]

theorem mergePayload_assoc (ha : a.Valid) (hb : b.Valid) (hc : c.Valid)
    (hab : a.phase = b.phase) (hbc : b.phase = c.phase) :
    mergePayload (mergePayload a b) c = mergePayload a (mergePayload b c) := by
  have hvab := mergePayload_valid ha hb hab
  have hvbc := mergePayload_valid hb hc hbc
  apply CoveragePayload.eq_of_totals (rendered_mergePayload _ _) (rendered_mergePayload _ _)
  · rfl
  · rfl
  · exact mergeRequested_assoc _ _ _
  · rw [totals_mergePayload hvab hc, totals_mergePayload ha hb, totals_mergePayload ha hvbc,
      totals_mergePayload hb hc, add_assoc]
  · simp only [log_mergePayload]
    exact CappedLog.append_assoc _ _ _

end Merge

/-- The constructor of the model: the validators run, and a payload they refuse raises. -/
def TaskCoverageReport.construct (p : CoveragePayload) : Option TaskCoverageReport :=
  if h : p.Valid then some ⟨p, h⟩ else none

theorem TaskCoverageReport.ext {r s : TaskCoverageReport} (h : r.payload = s.payload) : r = s := by
  cases r
  cases s
  simp_all

theorem TaskCoverageReport.construct_payload (r : TaskCoverageReport) :
    construct r.payload = some r := dif_pos r.valid

theorem TaskCoverageReport.construct_eq_some {p : CoveragePayload} {r : TaskCoverageReport} :
    construct p = some r ↔ p = r.payload := by
  constructor
  · intro h
    unfold construct at h
    split_ifs at h
    rw [← Option.some.inj h]
  · rintro rfl
    exact r.construct_payload

theorem mergeTaskReport_some {r s : TaskCoverageReport} (h : r.payload.phase = s.payload.phase) :
    mergeTaskReport (some r) s =
      TaskCoverageReport.construct (mergePayload r.payload s.payload) := by
  have hvalid := mergePayload_valid r.valid s.valid h
  rw [mergeTaskReport, dif_pos h, TaskCoverageReport.construct, dif_pos hvalid]

theorem mergeTaskReport_eq_some {r s m : TaskCoverageReport}
    (h : r.payload.phase = s.payload.phase) :
    mergeTaskReport (some r) s = some m ↔ mergePayload r.payload s.payload = m.payload := by
  rw [mergeTaskReport_some h, TaskCoverageReport.construct_eq_some]

theorem exists_mergeTaskReport {r s : TaskCoverageReport} (h : r.payload.phase = s.payload.phase) :
    ∃ m, mergeTaskReport (some r) s = some m ∧ m.payload = mergePayload r.payload s.payload :=
  ⟨⟨_, mergePayload_valid r.valid s.valid h⟩, (mergeTaskReport_eq_some h).2 rfl, rfl⟩

/-- What a merge says about the two payloads it was made of: every count is their sum,
the references are the earliest ones the cap admits, and an unknown total stays unknown. -/
structure Lossless (a b merged : CoveragePayload) : Prop where
  version : merged.version = a.version
  phase : merged.phase = a.phase
  totals : merged.totals = a.totals + b.totals
  outcomes : ∀ d,
    outcomeTotal merged.reasons d = outcomeTotal a.reasons d + outcomeTotal b.reasons d
  gaps : merged.gaps = (a.gaps ++ b.gaps).take maxCoverageGapReferences
  conserved : merged.gaps.length + merged.gapsOmitted =
    (a.gaps.length + a.gapsOmitted) + (b.gaps.length + b.gapsOmitted)
  requested : ∀ r, merged.scope.requested = some r ↔
    ∃ x y, a.scope.requested = some x ∧ b.scope.requested = some y ∧ r = x + y

theorem lossless_mergePayload {a b : CoveragePayload} (ha : a.Valid) (hb : b.Valid) :
    Lossless a b (mergePayload a b) where
  version := rfl
  phase := rfl
  totals := totals_mergePayload ha hb
  outcomes := outcomeTotal_mergePayload ha hb
  gaps := rfl
  conserved := congrFun (totals_mergePayload ha hb) .references
  requested := fun _ => mergeRequested_eq_some

/-- Merging is closed, lossless and associative on the reports of one phase. -/
theorem mergeTaskReport_lossless (a b c : TaskCoverageReport)
    (hab : a.payload.phase = b.payload.phase) (hbc : b.payload.phase = c.payload.phase) :
    mergeTaskReport none a = some a ∧
    ∃ ab bc abc : TaskCoverageReport,
      TaskCoverageReport.construct (mergePayload a.payload b.payload) = some ab ∧
      mergeTaskReport (some a) b = some ab ∧ Lossless a.payload b.payload ab.payload ∧
      mergeTaskReport (some b) c = some bc ∧
      mergeTaskReport (some ab) c = some abc ∧ mergeTaskReport (some a) bc = some abc := by
  obtain ⟨ab, hab', pab⟩ := exists_mergeTaskReport hab
  obtain ⟨bc, hbc', pbc⟩ := exists_mergeTaskReport hbc
  have habc : ab.payload.phase = c.payload.phase := (mergeTaskReport_phase hab').trans hbc
  obtain ⟨abc, habc', pabc⟩ := exists_mergeTaskReport habc
  have ha : a.payload.phase = bc.payload.phase := by rw [mergeTaskReport_phase hbc', hab, hbc]
  refine ⟨rfl, ab, bc, abc, ?_, hab', ?_, hbc', habc', ?_⟩
  · rw [← mergeTaskReport_some hab]
    exact hab'
  · rw [pab]
    exact lossless_mergePayload a.valid b.valid
  · rw [mergeTaskReport_eq_some ha, pbc, pabc, pab]
    exact (mergePayload_assoc a.valid b.valid c.valid hab hbc).symm

def oneGapReport (key : ReasonKey) (skipped failed : ℤ) : CoveragePayload where
  version := "1"
  phase := .fetch
  counts := ⟨1, 1, 0, skipped, failed⟩
  scope := ⟨none, 0, 0⟩
  reasons := [⟨key, 1⟩]
  gaps := []
  gapsOmitted := 1

def unreadableReport : TaskCoverageReport := ⟨oneGapReport (.failed, .sizeLimit) 0 1, by decide⟩

def excludedReport : TaskCoverageReport :=
  ⟨oneGapReport (.skipped, .unsupportedType) 1 0, by decide⟩

theorem mergeTaskReport_lossless_run :
    mergeTaskReport none unreadableReport = some unreadableReport ∧
    ∃ ab bc abc : TaskCoverageReport,
      TaskCoverageReport.construct
        (mergePayload unreadableReport.payload excludedReport.payload) = some ab ∧
      mergeTaskReport (some unreadableReport) excludedReport = some ab ∧
      Lossless unreadableReport.payload excludedReport.payload ab.payload ∧
      mergeTaskReport (some excludedReport) unreadableReport = some bc ∧
      mergeTaskReport (some ab) unreadableReport = some abc ∧
      mergeTaskReport (some unreadableReport) bc = some abc :=
  mergeTaskReport_lossless unreadableReport excludedReport unreadableReport rfl rfl

end IcebergSST
