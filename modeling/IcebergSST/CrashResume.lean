import IcebergSST.ExactlyOnce
import Mathlib.Data.List.MinMax

/-!
# What a resumed task still knows

A batch ships the coverage as of the last unit, and the checkpoint published last.
Between the two the connector may have recorded dispositions. When it has recorded no
failure there, a failure behind a stored checkpoint is in the stored coverage, so a
task that completes has none, however often it was resumed.
-/

namespace IcebergSST

variable {κ β χ ρ : Type}

/-- Nothing was recorded with a reason between the last unit and the checkpoint. -/
def Settled [DecidableEq χ] (c : χ) (h : Events κ β χ ρ) : Prop :=
  ∀ e ∈ (before c h).drop (cut h).length, e.recorded = none

instance [DecidableEq χ] (c : χ) (h : Events κ β χ ρ) : Decidable (Settled c h) :=
  inferInstanceAs (Decidable (∀ e ∈ _, _))

instance [DecidableEq χ] (G : χ → Events κ β χ ρ → Prop) [∀ c h, Decidable (G c h)]
    (w : World κ β χ ρ) (a : Action κ β χ ρ) : Decidable (w.Permits G a) :=
  match a with
  | .connector e t => inferInstanceAs (Decidable (∀ r ∈ w.runner,
      (e.IsUnit → t.cancelled = false → ∀ c ∈ r.fetch.composes t, G c r.history)))
  | .lease _ _ | .finish _ _ | .die | .renew | .reclaim | .cancel | .otherReport _ _
  | .strayProgress _ _ | .strayResults _ _ => .isTrue trivial

/-- How often an attempt recorded a reason before a checkpoint it got stored. -/
def AttemptLog.behind [DecidableEq χ] (k : ReasonKey) (a : AttemptLog κ β χ ρ) : ℕ :=
  (a.accepted.map (fun body => recordedCount k (before body.checkpoint a.history))).foldr max 0

theorem recordedCount_mono {h h' : Events κ β χ ρ} (hp : h' <+: h) (k : ReasonKey) :
    recordedCount k h' ≤ recordedCount k h :=
  hp.sublist.countP_le

section Settled
variable [DecidableEq χ] {c : χ} {h : Events κ β χ ρ} {lease : Lease κ β χ}
  {accepted : List (ProgressSubmission κ χ)}

theorem Settled.recordedCount_le (hs : Settled c h) (k : ReasonKey) :
    recordedCount k (before c h) ≤ recordedCount k (cut h) := by
  rcases List.prefix_or_prefix_of_prefix (before_initial (c := c) (h := h)) (cut_initial h) with
    hp | hp
  · exact recordedCount_mono hp k
  · -- beyond the cut nothing was recorded
    obtain ⟨t, ht⟩ := hp
    have hquiet : ∀ e ∈ t, e.recorded = none := by
      intro e he
      apply hs e
      rw [← ht, List.drop_left]
      exact he
    have hz : recordedCount k t = 0 := by
      apply List.countP_eq_zero.2
      intro e he
      rw [hquiet e he]
      simp
    rw [← ht, recordedCount, List.countP_append]
    change _ + recordedCount k t ≤ _
    rw [hz, add_zero]
    exact le_rfl

/-- The batches accepted from an attempt account for what it recorded behind any
checkpoint they shipped. -/
theorem Accounted.recorded_le (ha : Accounted Settled lease h accepted)
    {body : ProgressSubmission κ χ} (hb : body ∈ accepted) (k : ReasonKey) :
    (recordedCount k (before body.checkpoint h) : ℤ) ≤
      (accepted.map ProgressSubmission.totals).sum (.reason k) := by
  obtain ⟨h₀, log, sent, hl, hp, rfl⟩ := ha
  obtain ⟨batch, hbatch, rfl⟩ := List.mem_map.1 hb
  obtain ⟨sent', h₁, hp₁, hc⟩ := hl.composed hbatch
  have hbefore : before batch.payload.checkpoint h = before batch.checkpoint h₁ := by
    rw [hc.checkpoint]
    exact before_eq_of_prefix hc.published (hp₁.trans hp)
  have hcut := (hc.condition.recordedCount_le k).trans (recordedCount_mono (cut_mono hp₁) k)
  have hsum : ((log.map Batch.payload).map ProgressSubmission.totals).sum = totalsOf (cut h₀) := by
    rw [List.map_map]
    exact hl.totals
  rw [hbefore, hsum, totalsOf_reason]
  exact_mod_cast hcut

theorem Accounted.behind_le {a : AttemptLog κ β χ ρ}
    (ha : Accounted Settled a.lease a.history a.accepted) (k : ReasonKey) :
    (a.behind k : ℤ) ≤ (a.accepted.map ProgressSubmission.totals).sum (.reason k) := by
  have hnn : 0 ≤ (a.accepted.map ProgressSubmission.totals).sum (.reason k) := by
    obtain ⟨h₀, log, sent, hl, _, hlog⟩ := ha
    have hsum : (a.accepted.map ProgressSubmission.totals).sum = totalsOf (cut h₀) := by
      rw [← hlog, List.map_map]
      exact hl.totals
    rw [hsum, totalsOf_reason]
    exact Int.natCast_nonneg _
  lift (a.accepted.map ProgressSubmission.totals).sum (.reason k) to ℕ using hnn with n hn
  have hle : a.behind k ≤ n := by
    apply List.max_le_of_forall_le
    intro m hm
    obtain ⟨body, hb, rfl⟩ := List.mem_map.1 hm
    have hbody := ha.recorded_le hb k
    rw [← hn] at hbody
    exact_mod_cast hbody
  exact_mod_cast hle

end Settled

theorem World.Sound.behind_le [DecidableEq χ] {w : World κ β χ ρ} (hs : w.Sound Settled)
    (k : ReasonKey) : (((w.attempts.map (AttemptLog.behind k)).sum : ℕ) : ℤ) ≤
      (w.api.batches.map ProgressSubmission.totals).sum (.reason k) := by
  have hall : ∀ as : List (AttemptLog κ β χ ρ),
      (∀ a ∈ as, Accounted Settled a.lease a.history a.accepted) →
      (((as.map (AttemptLog.behind k)).sum : ℕ) : ℤ) ≤
        ((as.flatMap AttemptLog.accepted).map ProgressSubmission.totals).sum (.reason k) := by
    intro as has
    induction as with
    | nil => exact le_rfl
    | cons a as ih =>
        have hone := (has a List.mem_cons_self).behind_le k
        have hrest := ih (fun a' ha' => has a' (List.mem_cons_of_mem _ ha'))
        rw [List.map_cons, List.sum_cons, List.flatMap_cons, List.map_append, List.sum_append,
          Pi.add_apply, Nat.cast_add]
        exact add_le_add hone hrest
  rw [← hs.accepted]
  exact hall _ (fun a ha => hs.attempt_accounted ha)

theorem reasonTotal_le_outcomeTotal {p : CoveragePayload} (h : p.Valid) (k : ReasonKey) :
    reasonTotal p.reasons k ≤ outcomeTotal p.reasons k.1 := by
  rw [outcomeTotal_eq_sum]
  refine List.single_le_sum ?_ _ (List.mem_map.2 ⟨k, mem_reasonKeys k, if_pos rfl⟩)
  intro x hx
  obtain ⟨k', _, rfl⟩ := List.mem_map.1 hx
  split_ifs
  · exact reasonTotal_nonneg h.reasons k'
  · exact le_rfl

/-- A report without failures or scope gaps has no reason to show for either. -/
theorem reasonTotal_eq_zero_of_clean {p : CoveragePayload} (h : p.Valid)
    (hfailed : p.counts.failed = 0) (hgaps : p.scope.gaps = 0) {k : ReasonKey}
    (hk : k.1 ≠ .skipped) : reasonTotal p.reasons k = 0 := by
  have hle := reasonTotal_le_outcomeTotal h k
  have hnn := reasonTotal_nonneg h.reasons k
  have hz : outcomeTotal p.reasons k.1 = 0 := by
    cases hd : k.1 with
    | skipped => exact absurd hd hk
    | failed => rw [h.failed_total, hfailed]
    | scopeGap => rw [h.scopeGap_total, hgaps]
  omega

/-- The stored coverage has every disposition that lies behind a stored checkpoint, and
none of these is a failure or a gap. -/
structure World.HidesNothing [DecidableEq χ] (w : World κ β χ ρ) : Prop where
  recorded : ∃ r, w.api.db.task.coverage = some r ∧
    ∀ k, (((w.attempts.map (AttemptLog.behind k)).sum : ℕ) : ℤ) ≤ reasonTotal r.payload.reasons k
  inspected : ∀ a ∈ w.attempts, ∀ body ∈ a.accepted, ∀ e ∈ before body.checkpoint a.history,
    ∀ k, e.recorded = some k → k.1 = .skipped

/-- When no batch is composed over a failure recorded since the last unit, completion
hides nothing. -/
theorem World.completed_hides_nothing [DecidableEq χ] {w : World κ β χ ρ}
    (hw : Reachable (Permits Settled) w) (hdone : w.api.db.task.status = .completed) :
    w.HidesNothing := by
  have hs : w.Sound Settled := hw.sound (fun _ _ h => h)
  obtain ⟨r, hr, hfailed, hgaps⟩ := hs.api.completed hdone
  have hstored := hs.api.coverage (by rw [hdone]; simp)
  have hrecorded : ∀ k, (((w.attempts.map (AttemptLog.behind k)).sum : ℕ) : ℤ) ≤
      reasonTotal r.payload.reasons k := by
    intro k
    have htotal : reasonTotal r.payload.reasons k = w.api.takenTotals (.reason k) := by
      rw [← hstored, hr]
      rfl
    have hresults : ∀ bodies : List (ResultsSubmission κ ρ), (∀ b ∈ bodies, b.Valid) →
        0 ≤ (bodies.map ResultsSubmission.totals).sum (.reason k) := by
      intro bodies hvalid
      induction bodies with
      | nil => exact le_rfl
      | cons b bodies ih =>
          have hb : 0 ≤ b.totals (.reason k) := by
            unfold ResultsSubmission.totals
            cases hc : b.coverage with
            | none => exact le_rfl
            | some p =>
                have hp := (hvalid b List.mem_cons_self).coverage p hc
                exact reasonTotal_nonneg hp.reasons k
          rw [List.map_cons, List.sum_cons, Pi.add_apply]
          exact add_nonneg hb (ih (fun b' hb' => hvalid b' (List.mem_cons_of_mem _ hb')))
    rw [htotal, ApiState.takenTotals, Pi.add_apply]
    exact (hs.behind_le k).trans (le_add_of_nonneg_right (hresults _ hs.api.valid))
  refine ⟨⟨r, hr, hrecorded⟩, ?_⟩
  intro a ha body hb e he k hk
  by_contra hne
  have hz := reasonTotal_eq_zero_of_clean r.valid hfailed hgaps hne
  have hone : 0 < recordedCount k (before body.checkpoint a.history) :=
    List.countP_pos_iff.2 ⟨e, he, by simpa using hk⟩
  have hbehind : recordedCount k (before body.checkpoint a.history) ≤ a.behind k :=
    List.le_max_of_le (List.mem_map.2 ⟨body, hb, rfl⟩) le_rfl
  have hsum : a.behind k ≤ (w.attempts.map (AttemptLog.behind k)).sum :=
    List.single_le_sum (fun _ _ => Nat.zero_le _) _ (List.mem_map.2 ⟨a, ha, rfl⟩)
  have hk := hrecorded k
  rw [hz] at hk
  omega

def crashAndResume : List (Action ℕ Unit ℕ Unit) :=
  [.lease sampleGrant 0, .connector (.skippedFor ⟨_, skipped_emptyContent⟩ .path (some ())) {},
    .connector .scannedFor {}, .connector (sampleUnit [3]) {},
    .connector (.checkpointAt 1) {}, .connector .scannedFor {},
    .connector (sampleUnit [4]) (lateTick [.answered]), .die, .reclaim,
    .lease { sampleGrant with engine := 2 } 40, .connector .scannedFor {},
    .connector (sampleUnit [4]) {}, .connector (.checkpointAt 2) {}, .finish .exhausted [.answered]]

theorem World.completed_hides_nothing_after_crash :
    ∃ w : World ℕ Unit ℕ Unit, (start {} 0).run (Permits Settled) crashAndResume = some w ∧
      w.past.length = 2 ∧ (∃ a ∈ w.attempts, a.behind (.skipped, .emptyContent) = 1) ∧
      w.HidesNothing := by
  have hrun : ((start {} 0 : World ℕ Unit ℕ Unit).run (Permits Settled) crashAndResume).any
      (fun w => w.api.db.task.status = .completed ∧ w.past.length = 2 ∧
        ∃ a ∈ w.attempts, a.behind (.skipped, .emptyContent) = 1) := by decide +kernel
  obtain ⟨w, hw, hdone⟩ := (Option.any_eq_true _ _).1 hrun
  obtain ⟨hstatus, hlen, hskipped⟩ := of_decide_eq_true hdone
  exact ⟨w, hw, hlen, hskipped,
    completed_hides_nothing ((Reachable.start {} 0).run hw) hstatus⟩

/-- A file is scanned, the next one cannot be read, and the batch cut at the one after
it ships the coverage of the first with the position behind the second. -/
def failureBehindCheckpoint : List (Action ℕ Unit ℕ Unit) :=
  [.lease sampleGrant 0, .connector .scannedFor {}, .connector (sampleUnit [3]) {},
    .connector (.checkpointAt 1) {},
    .connector (.failedFor ⟨_, failed_permissionDenied⟩ .path (some ())) {},
    .connector (.checkpointAt 2) {}, .connector .scannedFor {},
    .connector (sampleUnit [4]) (lateTick [.answered]), .die, .reclaim,
    .lease { sampleGrant with engine := 2 } 40, .connector .scannedFor {},
    .connector (sampleUnit [4]) {}, .connector (.checkpointAt 3) {}, .finish .exhausted [.answered]]

theorem World.completed_can_hide_a_failure :
    ∃ w : World ℕ Unit ℕ Unit, Reachable (fun _ _ => True) w ∧
      w.api.db.task.status = .completed ∧ ¬ w.HidesNothing := by
  have hrun : ((start {} 0 : World ℕ Unit ℕ Unit).run (fun _ _ => True)
      failureBehindCheckpoint).any (fun w => w.api.db.task.status = .completed ∧
        ∃ a ∈ w.attempts, ∃ body ∈ a.accepted, ∃ e ∈ before body.checkpoint a.history,
          e.recorded = some (.failed, .permissionDenied)) := by decide +kernel
  obtain ⟨w, hw, hdone⟩ := (Option.any_eq_true _ _).1 hrun
  obtain ⟨hstatus, a, ha, body, hb, e, he, hk⟩ := of_decide_eq_true hdone
  refine ⟨w, (Reachable.start {} 0).run hw, hstatus, fun hclean => ?_⟩
  exact absurd (hclean.inspected a ha body hb e he _ hk) (by simp)

end IcebergSST
