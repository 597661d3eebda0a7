import IcebergSST.Enums

/-!
# Coverage of one task: the engine's accumulator, the wire report, and the merge

`TaskCoverage` is the accumulator a connector writes into, `CoveragePayload` the
shape that crosses the wire, and `TaskCoverageReport` a payload together with the
proof that it passes the API's validators. `coverageDelta` is what a batch adds to
the payloads sent before it and `mergeTaskReport` what the API does with it.
`totals` forgets the order of gaps and reasons, and turns both into arithmetic.
-/

namespace IcebergSST

structure CoverageCounts where
  requested : ℤ
  discovered : ℤ
  scanned : ℤ
  skipped : ℤ
  failed : ℤ
  deriving DecidableEq, Repr

structure CoverageScope where
  requested : Option ℤ
  discovered : ℤ
  gaps : ℤ
  deriving DecidableEq, Repr

/-- A disposition with one of its reasons: the key of every reason subtotal. -/
abbrev ReasonKey := CoverageDisposition × CoverageReason

structure CoverageReasonCount where
  key : ReasonKey
  count : ℤ
  deriving DecidableEq, Repr

def isHexDigit (c : Char) : Bool :=
  ('0' ≤ c && c ≤ '9') || ('a' ≤ c && c ≤ 'f')

/-- An opaque object reference, as the pattern `^[0-9a-f]{64}$` admits it. -/
structure GapReference where
  text : String
  wellFormed : text.toList.length = 64 ∧ text.toList.all isHexDigit
  deriving DecidableEq

theorem zeros_wellFormed : (String.ofList (List.replicate 64 '0')).toList.length = 64 ∧
    (String.ofList (List.replicate 64 '0')).toList.all isHexDigit := by
  decide

structure CoverageGap where
  kind : CoverageObjectKind
  key : ReasonKey
  reference : GapReference
  deriving DecidableEq

structure CoveragePayload where
  version : String
  phase : ScanTaskKind
  counts : CoverageCounts
  scope : CoverageScope
  reasons : List CoverageReasonCount
  gaps : List CoverageGap
  gapsOmitted : ℤ
  deriving DecidableEq

/-- Counter over the reason entries: repeated keys add up, absent ones are zero. -/
def reasonTotal (reasons : List CoverageReasonCount) (k : ReasonKey) : ℤ :=
  (reasons.map (fun e => if e.key = k then e.count else 0)).sum

def outcomeTotal (reasons : List CoverageReasonCount) (d : CoverageDisposition) : ℤ :=
  (reasons.map (fun e => if e.key.1 = d then e.count else 0)).sum

def gapTotal (gaps : List CoverageGap) (k : ReasonKey) : ℤ :=
  (gaps.countP (fun g => g.key = k) : ℤ)

structure CoverageCounts.Valid (c : CoverageCounts) : Prop where
  requested_nonneg : 0 ≤ c.requested
  discovered_nonneg : 0 ≤ c.discovered
  scanned_nonneg : 0 ≤ c.scanned
  skipped_nonneg : 0 ≤ c.skipped
  failed_nonneg : 0 ≤ c.failed
  requested_eq : c.requested = c.discovered
  reconciles : c.discovered = c.scanned + c.skipped + c.failed

structure CoverageScope.Valid (s : CoverageScope) : Prop where
  requested_nonneg : ∀ r, s.requested = some r → 0 ≤ r
  discovered_nonneg : 0 ≤ s.discovered
  gaps_nonneg : 0 ≤ s.gaps
  reconciles : ∀ r, s.requested = some r → r = s.discovered + s.gaps

def CoverageReasonCount.Valid (e : CoverageReasonCount) : Prop :=
  0 < e.count ∧ coverageReasonAllowed e.key.1 e.key.2

def CoverageGap.Valid (g : CoverageGap) : Prop :=
  g.key.1 = .scopeGap ↔ g.kind = .scope

/-- Everything `TaskCoverageReport` checks of a payload before it is accepted. -/
structure CoveragePayload.Valid (p : CoveragePayload) : Prop where
  version : p.version = "1"
  counts : p.counts.Valid
  scope : p.scope.Valid
  reasons : ∀ e ∈ p.reasons, e.Valid
  gaps : ∀ g ∈ p.gaps, g.Valid
  gaps_length : p.gaps.length ≤ maxCoverageGapReferences
  gapsOmitted_nonneg : 0 ≤ p.gapsOmitted
  keys_unique : (p.reasons.map CoverageReasonCount.key).Nodup
  skipped_total : outcomeTotal p.reasons .skipped = p.counts.skipped
  failed_total : outcomeTotal p.reasons .failed = p.counts.failed
  scopeGap_total : outcomeTotal p.reasons .scopeGap = p.scope.gaps
  gap_count : p.gaps.length + p.gapsOmitted = p.counts.skipped + p.counts.failed + p.scope.gaps
  gap_matched : ∀ g ∈ p.gaps, ∃ e ∈ p.reasons, e.key = g.key
  gap_bounded : ∀ g ∈ p.gaps, gapTotal p.gaps g.key ≤ reasonTotal p.reasons g.key
  discovery_objects : p.phase = .discovery →
    p.counts.requested = 0 ∧ p.counts.discovered = 0 ∧ p.counts.scanned = 0 ∧
      p.counts.skipped = 0 ∧ p.counts.failed = 0

theorem CoverageCounts.valid_iff (c : CoverageCounts) : c.Valid ↔
    0 ≤ c.requested ∧ 0 ≤ c.discovered ∧ 0 ≤ c.scanned ∧ 0 ≤ c.skipped ∧ 0 ≤ c.failed ∧
      c.requested = c.discovered ∧ c.discovered = c.scanned + c.skipped + c.failed :=
  ⟨fun h => ⟨h.1, h.2, h.3, h.4, h.5, h.6, h.7⟩,
    fun ⟨h₁, h₂, h₃, h₄, h₅, h₆, h₇⟩ => ⟨h₁, h₂, h₃, h₄, h₅, h₆, h₇⟩⟩

theorem CoverageScope.valid_iff (s : CoverageScope) : s.Valid ↔
    0 ≤ s.discovered ∧ 0 ≤ s.gaps ∧
      (s.requested = none ∨ s.requested = some (s.discovered + s.gaps)) := by
  constructor
  · intro h
    refine ⟨h.discovered_nonneg, h.gaps_nonneg, ?_⟩
    cases hr : s.requested with
    | none => exact Or.inl rfl
    | some r => exact Or.inr (by rw [h.reconciles r hr])
  · rintro ⟨hd, hg, hr⟩
    refine ⟨fun r h => ?_, hd, hg, fun r h => ?_⟩ <;>
      rcases hr with hr | hr <;> rw [hr] at h <;> simp at h <;> omega

instance (c : CoverageCounts) : Decidable c.Valid := decidable_of_iff' _ c.valid_iff

instance (s : CoverageScope) : Decidable s.Valid := decidable_of_iff' _ s.valid_iff

instance (e : CoverageReasonCount) : Decidable e.Valid :=
  inferInstanceAs (Decidable (_ ∧ _))

instance (g : CoverageGap) : Decidable g.Valid :=
  inferInstanceAs (Decidable (_ ↔ _))

theorem CoveragePayload.valid_iff (p : CoveragePayload) : p.Valid ↔
    p.version = "1" ∧ p.counts.Valid ∧ p.scope.Valid ∧ (∀ e ∈ p.reasons, e.Valid) ∧
      (∀ g ∈ p.gaps, g.Valid) ∧ p.gaps.length ≤ maxCoverageGapReferences ∧ 0 ≤ p.gapsOmitted ∧
      (p.reasons.map CoverageReasonCount.key).Nodup ∧
      outcomeTotal p.reasons .skipped = p.counts.skipped ∧
      outcomeTotal p.reasons .failed = p.counts.failed ∧
      outcomeTotal p.reasons .scopeGap = p.scope.gaps ∧
      p.gaps.length + p.gapsOmitted = p.counts.skipped + p.counts.failed + p.scope.gaps ∧
      (∀ g ∈ p.gaps, ∃ e ∈ p.reasons, e.key = g.key) ∧
      (∀ g ∈ p.gaps, gapTotal p.gaps g.key ≤ reasonTotal p.reasons g.key) ∧
      (p.phase = .discovery → p.counts.requested = 0 ∧ p.counts.discovered = 0 ∧
        p.counts.scanned = 0 ∧ p.counts.skipped = 0 ∧ p.counts.failed = 0) :=
  ⟨fun h => ⟨h.1, h.2, h.3, h.4, h.5, h.6, h.7, h.8, h.9, h.10, h.11, h.12, h.13, h.14, h.15⟩,
    fun ⟨h₁, h₂, h₃, h₄, h₅, h₆, h₇, h₈, h₉, h₁₀, h₁₁, h₁₂, h₁₃, h₁₄, h₁₅⟩ =>
      ⟨h₁, h₂, h₃, h₄, h₅, h₆, h₇, h₈, h₉, h₁₀, h₁₁, h₁₂, h₁₃, h₁₄, h₁₅⟩⟩

instance (p : CoveragePayload) : Decidable p.Valid := decidable_of_iff' _ p.valid_iff

/-- A report the API holds: the validators are part of the value. -/
structure TaskCoverageReport where
  payload : CoveragePayload
  valid : payload.Valid

/-- Reason keys in the order of their stored values, which every renderer sorts by. -/
def reasonKeys : List ReasonKey :=
  [CoverageDisposition.failed, .scopeGap, .skipped].product
    [CoverageReason.binaryContent, .cancelled, .connectorError, .emptyContent, .invalidMetadata,
      .invalidResponse, .missingResource, .outputLimit, .parseError, .permissionDenied,
      .rateLimited, .sizeLimit, .timeout, .unreported, .unsupportedType]

/-- The sorted entries of a counter, positive subtotals only. -/
def reasonEntries (f : ReasonKey → ℤ) : List CoverageReasonCount :=
  (reasonKeys.filter (fun k => 0 < f k)).map (fun k => ⟨k, f k⟩)

theorem reasonKeys_nodup : reasonKeys.Nodup := by decide

theorem mem_reasonKeys (k : ReasonKey) : k ∈ reasonKeys := by
  rcases k with ⟨d, r⟩
  cases d <;> cases r <;> decide

@[simp] theorem reasonTotal_nil (k : ReasonKey) : reasonTotal [] k = 0 := rfl

@[simp] theorem reasonTotal_cons (e : CoverageReasonCount) (es : List CoverageReasonCount)
    (k : ReasonKey) :
    reasonTotal (e :: es) k = (if e.key = k then e.count else 0) + reasonTotal es k := by
  simp [reasonTotal]

theorem sum_map_ite_eq {keys : List ReasonKey} (hk : keys.Nodup) (f : ReasonKey → ℤ)
    (k : ReasonKey) :
    (keys.map (fun k' => if k' = k then f k' else 0)).sum = if k ∈ keys then f k else 0 := by
  induction keys with
  | nil => simp
  | cons k' keys ih =>
      have hnd := List.nodup_cons.1 hk
      rw [List.map_cons, List.sum_cons, ih hnd.2]
      by_cases he : k' = k
      · subst he
        simp [hnd.1]
      · simp [he, Ne.symm he]

theorem reasonTotal_reasonEntries (f : ReasonKey → ℤ) (k : ReasonKey) :
    reasonTotal (reasonEntries f) k = if 0 < f k then f k else 0 := by
  have hm : reasonTotal (reasonEntries f) k =
      ((reasonKeys.filter (fun k => 0 < f k)).map (fun k' => if k' = k then f k' else 0)).sum := by
    simp [reasonTotal, reasonEntries, List.map_map, Function.comp_def]
  rw [hm, sum_map_ite_eq (reasonKeys_nodup.filter _)]
  simp [List.mem_filter, mem_reasonKeys]

theorem reasonTotal_reasonEntries_of_nonneg {f : ReasonKey → ℤ} {k : ReasonKey} (h : 0 ≤ f k) :
    reasonTotal (reasonEntries f) k = f k := by
  rw [reasonTotal_reasonEntries]
  split_ifs <;> omega

theorem outcomeTotal_eq_sum (reasons : List CoverageReasonCount) (d : CoverageDisposition) :
    outcomeTotal reasons d =
      (reasonKeys.map (fun k => if k.1 = d then reasonTotal reasons k else 0)).sum := by
  induction reasons with
  | nil => simp [outcomeTotal]
  | cons e es ih =>
      have hone : (reasonKeys.map (fun k =>
          if k = e.key then (if k.1 = d then e.count else 0) else 0)).sum =
          if e.key.1 = d then e.count else 0 := by
        rw [sum_map_ite_eq reasonKeys_nodup (fun k => if k.1 = d then e.count else 0),
          if_pos (mem_reasonKeys _)]
      rw [outcomeTotal, List.map_cons, List.sum_cons, ← outcomeTotal, ih, ← hone,
        ← List.sum_map_add]
      congr 1
      apply List.map_congr_left
      intro k _
      by_cases hd : k.1 = d <;> by_cases hk : e.key = k <;> simp [hd, hk, Ne.symm]

theorem outcomeTotal_reasonEntries {f : ReasonKey → ℤ} (h : ∀ k, 0 ≤ f k)
    (d : CoverageDisposition) :
    outcomeTotal (reasonEntries f) d =
      (reasonKeys.map (fun k => if k.1 = d then f k else 0)).sum := by
  rw [outcomeTotal_eq_sum]
  simp only [reasonTotal_reasonEntries_of_nonneg (h _)]

theorem reasonEntries_keys_nodup (f : ReasonKey → ℤ) :
    ((reasonEntries f).map CoverageReasonCount.key).Nodup := by
  have h : (reasonEntries f).map CoverageReasonCount.key =
      reasonKeys.filter (fun k => 0 < f k) := by
    simp [reasonEntries, List.map_map, Function.comp_def]
  rw [h]
  exact reasonKeys_nodup.filter _

theorem mem_reasonEntries {f : ReasonKey → ℤ} {e : CoverageReasonCount} :
    e ∈ reasonEntries f ↔ 0 < f e.key ∧ e.count = f e.key := by
  constructor
  · intro h
    obtain ⟨k, hk, rfl⟩ := List.mem_map.1 h
    exact ⟨by simpa using (List.mem_filter.1 hk).2, rfl⟩
  · rintro ⟨hpos, hc⟩
    refine List.mem_map.2 ⟨e.key, List.mem_filter.2 ⟨mem_reasonKeys _, by simpa using hpos⟩, ?_⟩
    rw [← hc]

theorem reasonTotal_nonneg {reasons : List CoverageReasonCount} (h : ∀ e ∈ reasons, e.Valid)
    (k : ReasonKey) : 0 ≤ reasonTotal reasons k := by
  apply List.sum_nonneg
  intro x hx
  obtain ⟨e, he, rfl⟩ := List.mem_map.1 hx
  split_ifs
  · exact (h e he).1.le
  · exact le_rfl

theorem exists_entry_of_reasonTotal_pos {reasons : List CoverageReasonCount} {k : ReasonKey}
    (h : 0 < reasonTotal reasons k) : ∃ e ∈ reasons, e.key = k := by
  by_contra hno
  push Not at hno
  have hz : reasonTotal reasons k = 0 := by
    apply List.sum_eq_zero
    intro x hx
    obtain ⟨e, he, rfl⟩ := List.mem_map.1 hx
    exact if_neg (hno e he)
  omega

theorem reasonTotal_pos_of_mem {reasons : List CoverageReasonCount} (h : ∀ e ∈ reasons, e.Valid)
    {e : CoverageReasonCount} (he : e ∈ reasons) : 0 < reasonTotal reasons e.key := by
  have hle : e.count ≤ reasonTotal reasons e.key := by
    refine List.single_le_sum ?_ _ (List.mem_map.2 ⟨e, he, if_pos rfl⟩)
    intro x hx
    obtain ⟨e', he', rfl⟩ := List.mem_map.1 hx
    split_ifs
    · exact (h e' he').1.le
    · exact le_rfl
  exact (h e he).1.trans_le hle

def mergeRequested : Option ℤ → Option ℤ → Option ℤ
  | some a, some b => some (a + b)
  | _, _ => none

def mergePayload (existing delta : CoveragePayload) : CoveragePayload :=
  let gaps := existing.gaps ++ delta.gaps
  let retained := gaps.take maxCoverageGapReferences
  { version := existing.version
    phase := existing.phase
    counts :=
      { requested := existing.counts.requested + delta.counts.requested
        discovered := existing.counts.discovered + delta.counts.discovered
        scanned := existing.counts.scanned + delta.counts.scanned
        skipped := existing.counts.skipped + delta.counts.skipped
        failed := existing.counts.failed + delta.counts.failed }
    scope :=
      { requested := mergeRequested existing.scope.requested delta.scope.requested
        discovered := existing.scope.discovered + delta.scope.discovered
        gaps := existing.scope.gaps + delta.scope.gaps }
    reasons := reasonEntries
      (fun k => reasonTotal existing.reasons k + reasonTotal delta.reasons k)
    gaps := retained
    gapsOmitted := existing.gapsOmitted + delta.gapsOmitted + (gaps.length - retained.length) }

section Merge
variable {a b : CoveragePayload}

theorem merge_reasonTotal_nonneg (ha : a.Valid) (hb : b.Valid) (k : ReasonKey) :
    0 ≤ reasonTotal a.reasons k + reasonTotal b.reasons k :=
  add_nonneg (reasonTotal_nonneg ha.reasons k) (reasonTotal_nonneg hb.reasons k)

theorem reasonTotal_mergePayload (ha : a.Valid) (hb : b.Valid) (k : ReasonKey) :
    reasonTotal (mergePayload a b).reasons k = reasonTotal a.reasons k + reasonTotal b.reasons k :=
  reasonTotal_reasonEntries_of_nonneg (merge_reasonTotal_nonneg ha hb k)

theorem outcomeTotal_mergePayload (ha : a.Valid) (hb : b.Valid) (d : CoverageDisposition) :
    outcomeTotal (mergePayload a b).reasons d =
      outcomeTotal a.reasons d + outcomeTotal b.reasons d := by
  rw [mergePayload, outcomeTotal_reasonEntries (merge_reasonTotal_nonneg ha hb),
    outcomeTotal_eq_sum a.reasons, outcomeTotal_eq_sum b.reasons, ← List.sum_map_add]
  congr 1
  apply List.map_congr_left
  intro k _
  split_ifs <;> simp

theorem mem_mergePayload_gaps {g : CoverageGap} (hg : g ∈ (mergePayload a b).gaps) :
    g ∈ a.gaps ∨ g ∈ b.gaps :=
  List.mem_append.1 (List.mem_of_mem_take hg)

theorem reasonTotal_pos_of_gap (ha : a.Valid) {g : CoverageGap} (hg : g ∈ a.gaps) :
    0 < reasonTotal a.reasons g.key := by
  obtain ⟨e, he, hk⟩ := ha.gap_matched g hg
  rw [← hk]
  exact reasonTotal_pos_of_mem ha.reasons he

theorem gapTotal_le_reasonTotal (ha : a.Valid) (k : ReasonKey) :
    gapTotal a.gaps k ≤ reasonTotal a.reasons k := by
  by_cases hk : ∃ g ∈ a.gaps, g.key = k
  · obtain ⟨g, hg, rfl⟩ := hk
    exact ha.gap_bounded g hg
  · have hz : a.gaps.countP (fun g => g.key = k) = 0 :=
      List.countP_eq_zero.2 (fun g hg => by simpa using fun he => hk ⟨g, hg, he⟩)
    rw [gapTotal, hz]
    exact reasonTotal_nonneg ha.reasons k

theorem gapTotal_mergePayload_le (a b : CoveragePayload) (k : ReasonKey) :
    gapTotal (mergePayload a b).gaps k ≤ gapTotal a.gaps k + gapTotal b.gaps k := by
  have h := (List.take_sublist maxCoverageGapReferences (a.gaps ++ b.gaps)).countP_le
    (p := fun g => g.key = k)
  rw [List.countP_append] at h
  unfold gapTotal mergePayload
  exact_mod_cast h

theorem mergeRequested_valid {s t : CoverageScope} (hs : s.Valid) (ht : t.Valid) :
    mergeRequested s.requested t.requested = none ∨
      mergeRequested s.requested t.requested =
        some (s.discovered + t.discovered + (s.gaps + t.gaps)) := by
  rcases (CoverageScope.valid_iff s).1 hs with ⟨_, _, hs | hs⟩ <;>
    rcases (CoverageScope.valid_iff t).1 ht with ⟨_, _, ht | ht⟩ <;>
      simp only [hs, ht, mergeRequested, reduceCtorEq, or_false, false_or, Option.some.injEq]
  ring

/-- Merging two accepted reports of one phase passes every validator again, so the
constructor call in the merge never refuses its own result. -/
theorem mergePayload_valid (ha : a.Valid) (hb : b.Valid) (hphase : a.phase = b.phase) :
    (mergePayload a b).Valid where
  version := ha.version
  counts := by
    have hac := ha.counts
    have hbc := hb.counts
    exact ⟨add_nonneg hac.1 hbc.1, add_nonneg hac.2 hbc.2, add_nonneg hac.3 hbc.3,
      add_nonneg hac.4 hbc.4, add_nonneg hac.5 hbc.5,
      by simp only [mergePayload]; rw [hac.6, hbc.6],
      by simp only [mergePayload]; rw [hac.7, hbc.7]; ring⟩
  scope := (CoverageScope.valid_iff _).2
    ⟨add_nonneg ha.scope.discovered_nonneg hb.scope.discovered_nonneg,
      add_nonneg ha.scope.gaps_nonneg hb.scope.gaps_nonneg,
      mergeRequested_valid ha.scope hb.scope⟩
  reasons := by
    intro e he
    obtain ⟨hpos, hcount⟩ := mem_reasonEntries.1 he
    refine ⟨hcount ▸ hpos, ?_⟩
    by_cases hka : 0 < reasonTotal a.reasons e.key
    · obtain ⟨e', he', hk⟩ := exists_entry_of_reasonTotal_pos hka
      exact hk ▸ (ha.reasons e' he').2
    · obtain ⟨e', he', hk⟩ := exists_entry_of_reasonTotal_pos
        (show 0 < reasonTotal b.reasons e.key by omega)
      exact hk ▸ (hb.reasons e' he').2
  gaps := fun g hg => (mem_mergePayload_gaps hg).elim (ha.gaps g) (hb.gaps g)
  gaps_length := List.length_take_le _ _
  gapsOmitted_nonneg := by
    have hle := List.length_take_le' maxCoverageGapReferences (a.gaps ++ b.gaps)
    have h₁ := ha.gapsOmitted_nonneg
    have h₂ := hb.gapsOmitted_nonneg
    simp only [mergePayload]
    omega
  keys_unique := reasonEntries_keys_nodup _
  skipped_total := by
    rw [outcomeTotal_mergePayload ha hb, ha.skipped_total, hb.skipped_total]; rfl
  failed_total := by
    rw [outcomeTotal_mergePayload ha hb, ha.failed_total, hb.failed_total]; rfl
  scopeGap_total := by
    rw [outcomeTotal_mergePayload ha hb, ha.scopeGap_total, hb.scopeGap_total]; rfl
  gap_count := by
    have h₁ := ha.gap_count
    have h₂ := hb.gap_count
    simp only [mergePayload, List.length_append]
    push_cast
    omega
  gap_matched := by
    intro g hg
    apply exists_entry_of_reasonTotal_pos
    rw [reasonTotal_mergePayload ha hb]
    have h₁ := reasonTotal_nonneg ha.reasons g.key
    have h₂ := reasonTotal_nonneg hb.reasons g.key
    rcases mem_mergePayload_gaps hg with hg | hg
    · have := reasonTotal_pos_of_gap ha hg
      omega
    · have := reasonTotal_pos_of_gap hb hg
      omega
  gap_bounded := by
    intro g _
    rw [reasonTotal_mergePayload ha hb]
    exact (gapTotal_mergePayload_le a b g.key).trans
      (add_le_add (gapTotal_le_reasonTotal ha g.key) (gapTotal_le_reasonTotal hb g.key))
  discovery_objects := by
    intro hp
    have h₁ := ha.discovery_objects hp
    have h₂ := hb.discovery_objects (hphase ▸ hp)
    simp only [mergePayload, h₁, h₂]
    decide

end Merge

/-- Accumulate one batch's coverage onto what a task has already reported. `none`
is the `ValueError` of two batches that disagree about the task phase. -/
def mergeTaskReport (existing : Option TaskCoverageReport) (delta : TaskCoverageReport) :
    Option TaskCoverageReport :=
  match existing with
  | none => some delta
  | some report =>
      if h : report.payload.phase = delta.payload.phase then
        some ⟨mergePayload report.payload delta.payload,
          mergePayload_valid report.valid delta.valid h⟩
      else none

theorem mergeTaskReport_phase {existing : Option TaskCoverageReport}
    {delta merged : TaskCoverageReport} (h : mergeTaskReport existing delta = some merged) :
    merged.payload.phase = delta.payload.phase := by
  cases existing with
  | none =>
      obtain rfl : delta = merged := Option.some.inj h
      rfl
  | some report =>
      simp only [mergeTaskReport] at h
      split_ifs at h with hphase
      rw [← Option.some.inj h]
      exact hphase

end IcebergSST
