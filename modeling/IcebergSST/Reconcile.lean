import IcebergSST.Outcome

/-!
# Accumulators that reconcile

Everything a `TaskCoverage` records keeps its totals, its reasons and its references in
step, so its payload passes the validators exactly when the scope equation balances.
-/

namespace IcebergSST

variable {β : Type}

def dispositionTotal (f : ReasonKey → ℤ) (d : CoverageDisposition) : ℤ :=
  (reasonKeys.map (fun k => if k.1 = d then f k else 0)).sum

theorem dispositionTotal_add_single (f : ReasonKey → ℤ) (key : ReasonKey)
    (d : CoverageDisposition) :
    dispositionTotal (f + Pi.single key 1) d =
      dispositionTotal f d + if key.1 = d then 1 else 0 := by
  have hone : (reasonKeys.map (fun k =>
      if k = key then (if k.1 = d then (1 : ℤ) else 0) else 0)).sum =
      if key.1 = d then 1 else 0 := by
    rw [sum_map_ite_eq reasonKeys_nodup (fun k => if k.1 = d then 1 else 0),
      if_pos (mem_reasonKeys _)]
  rw [dispositionTotal, dispositionTotal, ← hone, ← List.sum_map_add]
  congr 1
  apply List.map_congr_left
  intro k _
  by_cases hk : k = key
  · subst hk
    by_cases hd : k.1 = d <;> simp [hd]
  · by_cases hd : k.1 = d <;> simp [hd, hk]

namespace TaskCoverage

/-- The counts, reasons and references of an accumulator agree. The scope equation is
not part of it: the accumulator does not know when enumeration is over. -/
structure Sound (c : TaskCoverage β) : Prop where
  counts : (CoverageCounts.mk c.requested c.discovered c.scanned c.skipped c.failed).Valid
  reasons : ∀ k, 0 ≤ c.reasonCounts k
  allowed : ∀ k, 0 < c.reasonCounts k → coverageReasonAllowed k.1 k.2
  skipped : dispositionTotal c.reasonCounts .skipped = c.skipped
  failed : dispositionTotal c.reasonCounts .failed = c.failed
  scopeGap : dispositionTotal c.reasonCounts .scopeGap = c.scopeGaps
  kinds : ∀ g ∈ c.gaps, g.Valid
  gaps_length : c.gaps.length ≤ maxCoverageGapReferences
  omitted : 0 ≤ c.gapsOmitted
  gap_count : c.gaps.length + c.gapsOmitted = c.skipped + c.failed + c.scopeGaps
  gap_bounded : ∀ k, gapTotal c.gaps k ≤ c.reasonCounts k
  scopes : 0 ≤ c.scopeDiscovered ∧ 0 ≤ c.scopeGaps

variable {c : TaskCoverage β}

theorem sound_start (phase : ScanTaskKind)
    (referenceKey : Option (CoverageObjectKind → β → GapReference)) (requested : Option ℤ) :
    ({ phase, referenceKey, scopeRequested := requested } : TaskCoverage β).Sound := by
  have hz : ∀ d, dispositionTotal 0 d = 0 := by
    intro d
    apply List.sum_eq_zero
    intro x hx
    obtain ⟨k, _, rfl⟩ := List.mem_map.1 hx
    split_ifs <;> rfl
  refine ⟨⟨le_rfl, le_rfl, le_rfl, le_rfl, le_rfl, rfl, rfl⟩, fun _ => le_rfl, ?_, hz _, hz _, hz _,
    ?_, Nat.zero_le _, le_rfl, rfl, fun _ => le_rfl, le_rfl, le_rfl⟩
  · intro k hk
    exact absurd hk (lt_irrefl 0)
  · intro g hg
    cases hg

theorem Sound.scopeFound (h : c.Sound) : c.scopeFound.Sound :=
  { h with scopes := ⟨add_nonneg h.scopes.1 zero_le_one, h.scopes.2⟩ }

theorem gapTotal_append_singleton (gaps : List CoverageGap) (g : CoverageGap) (k : ReasonKey) :
    gapTotal (gaps ++ [g]) k = gapTotal gaps k + if g.key = k then 1 else 0 := by
  rw [gapTotal, List.countP_append, List.countP_singleton, Nat.cast_add]
  by_cases hk : g.key = k <;> simp [gapTotal, hk]

theorem Sound.scopeGap_sound (h : c.Sound) (reason : AllowedReason .scopeGap) (ref : Option β) :
    (c.scopeGap reason ref).Sound := by
  have hsingle : (0 : ReasonKey → ℤ) ≤ Pi.single (.scopeGap, reason.1) 1 :=
    Pi.single_nonneg.2 zero_le_one
  have hnn : ∀ k, 0 ≤ c.reasonCounts k +
      (Pi.single (CoverageDisposition.scopeGap, reason.1) 1 : ReasonKey → ℤ) k :=
    fun k => add_nonneg (h.reasons k) (hsingle k)
  have hallowed : ∀ k, 0 < c.reasonCounts k +
      (Pi.single (CoverageDisposition.scopeGap, reason.1) 1 : ReasonKey → ℤ) k →
        coverageReasonAllowed k.1 k.2 := by
    intro k hk
    by_cases he : k = (.scopeGap, reason.1)
    · rw [he]
      exact reason.2
    · rw [Pi.single_eq_of_ne he, add_zero] at hk
      exact h.allowed k hk
  have htotal := dispositionTotal_add_single c.reasonCounts (.scopeGap, reason.1)
  have hskipped := h.skipped
  have hfailed := h.failed
  have hgap := h.scopeGap
  have hcount := h.gap_count
  unfold TaskCoverage.scopeGap
  rcases TaskCoverage.gap_cases { c with scopeGaps := c.scopeGaps + 1 }
    (CoverageDisposition.scopeGap, reason.1) .scope ref with ⟨digest, hlt, hg⟩ | hg <;> rw [hg]
  · refine ⟨h.counts, hnn, hallowed, ?_, ?_, ?_, ?_, ?_, h.omitted, ?_, ?_, h.scopes.1, ?_⟩
    · simpa only [htotal, reduceCtorEq, if_false, add_zero] using hskipped
    · simpa only [htotal, reduceCtorEq, if_false, add_zero] using hfailed
    · simp only [htotal, if_true, hgap]
    · intro g hmem
      rcases List.mem_append.1 hmem with hmem | hmem
      · exact h.kinds g hmem
      · obtain rfl := List.mem_singleton.1 hmem
        exact iff_of_true rfl rfl
    · rw [List.length_append]
      exact hlt
    · simp only [List.length_append, List.length_singleton]
      push_cast
      omega
    · intro k
      rw [gapTotal_append_singleton]
      have hb := h.gap_bounded k
      by_cases hk : (CoverageDisposition.scopeGap, reason.1) = k
      · subst hk
        simp only [Pi.add_apply, Pi.single_eq_same, if_true]
        omega
      · simp only [Pi.add_apply, Pi.single_eq_of_ne (Ne.symm hk), if_neg hk]
        omega
    · exact add_nonneg h.scopes.2 zero_le_one
  · refine ⟨h.counts, hnn, hallowed, ?_, ?_, ?_, h.kinds, h.gaps_length, ?_, ?_, ?_, h.scopes.1, ?_⟩
    · simpa only [htotal, reduceCtorEq, if_false, add_zero] using hskipped
    · simpa only [htotal, reduceCtorEq, if_false, add_zero] using hfailed
    · simp only [htotal, if_true, hgap]
    · exact add_nonneg h.omitted zero_le_one
    · dsimp only
      omega
    · intro k
      exact (h.gap_bounded k).trans (le_add_of_nonneg_right (hsingle k))
    · exact add_nonneg h.scopes.2 zero_le_one

/-- What is left to check of a sound accumulator: the scope equation, and that a
discovery task reports no objects. -/
theorem Sound.valid_iff (h : c.Sound) : c.asPayload.Valid ↔
    (c.scopeRequested = none ∨ c.scopeRequested = some (c.scopeDiscovered + c.scopeGaps)) ∧
      (c.phase = .discovery →
        c.requested = 0 ∧ c.discovered = 0 ∧ c.scanned = 0 ∧ c.skipped = 0 ∧ c.failed = 0) := by
  have hout : ∀ d, outcomeTotal (reasonEntries c.reasonCounts) d =
      dispositionTotal c.reasonCounts d := fun d => outcomeTotal_reasonEntries h.reasons d
  have hreason : ∀ k, reasonTotal (reasonEntries c.reasonCounts) k = c.reasonCounts k :=
    fun k => reasonTotal_reasonEntries_of_nonneg (h.reasons k)
  constructor
  · intro hv
    exact ⟨((CoverageScope.valid_iff _).1 hv.scope).2.2, hv.discovery_objects⟩
  · rintro ⟨hscope, hphase⟩
    refine ⟨rfl, h.counts, (CoverageScope.valid_iff _).2 ⟨h.scopes.1, h.scopes.2, hscope⟩, ?_,
      h.kinds, h.gaps_length, h.omitted, reasonEntries_keys_nodup _, (hout _).trans h.skipped,
      (hout _).trans h.failed, (hout _).trans h.scopeGap, h.gap_count, ?_, ?_, hphase⟩
    · intro e he
      obtain ⟨hpos, hcount⟩ := mem_reasonEntries.1 he
      exact ⟨hcount ▸ hpos, h.allowed _ hpos⟩
    · intro g hg
      -- a reference is counted under its own reason
      have hone : 0 < gapTotal c.gaps g.key := by
        unfold gapTotal
        exact_mod_cast List.countP_pos_iff.2 ⟨g, hg, by simp⟩
      apply exists_entry_of_reasonTotal_pos
      change 0 < reasonTotal (reasonEntries c.reasonCounts) g.key
      rw [hreason]
      exact hone.trans_le (h.gap_bounded g.key)
    · intro g _
      change gapTotal c.gaps g.key ≤ reasonTotal (reasonEntries c.reasonCounts) g.key
      rw [hreason]
      exact h.gap_bounded g.key

end TaskCoverage

end IcebergSST
