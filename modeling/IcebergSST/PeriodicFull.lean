import IcebergSST.Scans

/-!
# When the periodic full scan comes due

The age test reads when a row was last stored. Only complete scans store rows, but all
of them do, so a row that passes the test long after the last full scan was stored by an
incremental one since. That is the only way a due full scan does not happen.
-/

namespace IcebergSST

variable {κ P π : Type}

namespace SourceWorld

/-- When the last completed full scan finished. -/
def lastFull (w : SourceWorld P π) : Option ℕ :=
  (w.finished.filter fun r => r.row.mode = .full ∧ r.status = .completed).getLast?.map
    (·.finishedAt)

/-- Every live row would pass, and an incremental scan stored it less than the interval
ago. -/
structure Refreshed (w : SourceWorld P π) (pepperRotating : Bool) : Prop where
  live : activeCursors w.cursors ≠ []
  pepper : pepperRotating = false
  configuration : ∀ c ∈ activeCursors w.cursors,
    c.sourceConfigurationVersion = some w.source.updatedAt
  rulepack : ∀ c ∈ activeCursors w.cursors, fleetRulepackVersion w.engines ≠ none ∧
    c.rulepackVersion = fleetRulepackVersion w.engines
  renewed : ∀ c ∈ activeCursors w.cursors, ∃ r ∈ w.finished,
    r.row.id = c.mintedByScanId ∧ r.row.mode = .incremental ∧ r.finishedAt = c.mintedAt ∧
      (w.clock : ℤ) < r.finishedAt + w.source.interval

/-- Every row names the complete scan that stored it, and scans finish in the order of
the clock. -/
structure Dated (w : SourceWorld P π) : Prop where
  minted : ∀ c ∈ w.cursors, ∃ r ∈ w.finished,
    r.complete ∧ r.row.id = c.mintedByScanId ∧ r.finishedAt = c.mintedAt
  ordered : w.finished.Pairwise fun r r' => r.finishedAt ≤ r'.finishedAt
  past : ∀ r ∈ w.finished, r.finishedAt ≤ w.clock
  completed : ∀ r ∈ w.finished, r.complete → r.status = .completed

theorem Dated.append {w w' : SourceWorld P π} (hd : w.Dated) {r : FinishedScan P π}
    (hfin : w'.finished = w.finished ++ [r]) (hclock : w'.clock = w.clock)
    (hat : r.finishedAt = w.clock) (hr : r.complete → r.status = .completed)
    (hminted : ∀ c ∈ w'.cursors, c ∈ w.cursors ∨
      (r.complete ∧ r.row.id = c.mintedByScanId ∧ r.finishedAt = c.mintedAt)) : w'.Dated where
  minted := by
    intro c hc
    rw [hfin]
    rcases hminted c hc with hold | hnew
    · obtain ⟨r', hr', h⟩ := hd.minted c hold
      exact ⟨r', List.mem_append_left _ hr', h⟩
    · exact ⟨r, List.mem_append_right _ (List.mem_singleton.2 rfl), hnew⟩
  ordered := by
    rw [hfin]
    refine List.pairwise_append.2 ⟨hd.ordered, List.pairwise_singleton _ _, ?_⟩
    intro r₁ h₁ r₂ h₂
    obtain rfl := List.mem_singleton.1 h₂
    rw [hat]
    exact hd.past r₁ h₁
  past := by
    intro r' hr'
    rw [hfin] at hr'
    rw [hclock]
    rcases List.mem_append.1 hr' with h | h
    · exact hd.past r' h
    · obtain rfl := List.mem_singleton.1 h
      omega
  completed := by
    intro r' hr'
    rw [hfin] at hr'
    rcases List.mem_append.1 hr' with h | h
    · exact hd.completed r' h
    · obtain rfl := List.mem_singleton.1 h
      exact hr

theorem final_of_complete {s : ActiveScan P π} (h : s.Complete) : s.final = .completed := by
  unfold ActiveScan.Complete at h
  rw [Bool.and_eq_true, decide_eq_true_eq] at h
  exact h.1

theorem Dated.step {w w' : SourceWorld P π} (hd : w.Dated) {a : SourceAction κ P π}
    (h : w.step a = some w') : w'.Dated := by
  rcases step_cases h with ⟨hcur, hfin, hclock⟩ | ⟨⟨reason, hcur⟩, hfin, hclock⟩ |
    ⟨s, status, -, hcur, hclock, hfin⟩ | ⟨s, -, hcomplete, rfl⟩
  · refine ⟨?_, hfin ▸ hd.ordered, ?_, hfin ▸ hd.completed⟩
    · rw [hcur, hfin]
      exact hd.minted
    · intro r hr
      rw [hfin] at hr
      exact (hd.past r hr).trans hclock
  · refine ⟨?_, hfin ▸ hd.ordered, ?_, hfin ▸ hd.completed⟩
    · intro c hc
      rw [hcur] at hc
      obtain ⟨old, hold, -, hsame⟩ := mem_invalidate hc
      rw [hfin, hsame.mintedByScanId, hsame.mintedAt]
      exact hd.minted old hold
    · rw [hfin, hclock]
      exact hd.past
  · apply hd.append hfin hclock rfl
    · intro hfalse
      cases hfalse
    · intro c hc
      rw [hcur] at hc
      exact Or.inl hc
  · have hfin : (w.finalize s).finished =
        w.finished ++ [s.finished s.final s.Complete w.clock] := rfl
    apply hd.append hfin rfl rfl
    · exact final_of_complete
    · intro c hc
      simp only [finalize, if_pos hcomplete] at hc
      rcases mem_commitProposals hc with hold | ⟨_, _, _, _, _, _, _, rfl⟩
      · exact Or.inl hold
      · exact Or.inr ⟨hcomplete, rfl, rfl⟩

theorem Reachable.dated {guard : SourceWorld P π → SourceAction κ P π → Prop}
    {w : SourceWorld P π} (hw : Reachable guard w) : w.Dated := by
  induction hw with
  | start source =>
      exact ⟨fun c hc => absurd hc List.not_mem_nil, List.Pairwise.nil,
        fun r hr => absurd hr List.not_mem_nil, fun r hr => absurd hr List.not_mem_nil⟩
  | step _ _ hstep ih => exact ih.step hstep

theorem Dated.le_lastFull {w : SourceWorld P π} (hd : w.Dated) {t : ℕ}
    (hlast : w.lastFull = some t) {r : FinishedScan P π} (hr : r ∈ w.finished)
    (hmode : r.row.mode = .full) (hstatus : r.status = .completed) : r.finishedAt ≤ t := by
  obtain ⟨last, hget, rfl⟩ := Option.map_eq_some_iff.1 hlast
  obtain ⟨earlier, hsplit⟩ := List.getLast?_eq_some_iff.1 hget
  have hmem : r ∈ w.finished.filter fun r => r.row.mode = .full ∧ r.status = .completed :=
    List.mem_filter.2 ⟨hr, by simp [hmode, hstatus]⟩
  have hpair := hd.ordered.filter fun r => r.row.mode = .full ∧ r.status = .completed
  rw [hsplit] at hmem hpair
  rcases List.mem_append.1 hmem with h | h
  · exact (List.pairwise_append.1 hpair).2.2 r h last (List.mem_singleton.2 rfl)
  · rw [List.mem_singleton.1 h]

/-- Once a full scan is due, an incremental plan is one on refreshed rows. -/
theorem Dated.plan_incremental_iff {w : SourceWorld P π} (hd : w.Dated) {t : ℕ}
    (hlast : w.lastFull = some t) (hdue : (t : ℤ) + w.source.interval ≤ w.clock)
    (pepperRotating : Bool) :
    (w.plan .incremental pepperRotating).2.mode = .incremental ↔ w.Refreshed pepperRotating := by
  unfold plan
  rw [planMode_incremental_iff]
  constructor
  · rintro ⟨hlive, hall⟩
    have hpass := fun c hc => invalidationFor_eq_none.1 (hall c hc)
    obtain ⟨c₀, hc₀⟩ := List.exists_mem_of_ne_nil _ hlive
    refine ⟨hlive, (hpass c₀ hc₀).2.2.2.1, fun c hc => (hpass c hc).2.1,
      fun c hc => (hpass c hc).2.2.1, fun c hc => ?_⟩
    have hage := (hpass c hc).2.2.2.2
    obtain ⟨r, hr, hcomplete, hid, hat⟩ := hd.minted c (mem_activeCursors.1 hc).1
    refine ⟨r, hr, hid, ?_, hat, by omega⟩
    cases hmode : r.row.mode with
    | incremental => rfl
    | full =>
        -- a row stored by a full scan is as old as that scan, and would not pass
        have hle := hd.le_lastFull hlast hr hmode (hd.completed r hr hcomplete)
        omega
  · rintro ⟨hlive, hpepper, hconf, hpack, hrenewed⟩
    refine ⟨hlive, fun c hc => invalidationFor_eq_none.2 ⟨(mem_activeCursors.1 hc).2, hconf c hc,
      hpack c hc, hpepper, ?_⟩⟩
    obtain ⟨r, -, -, -, hat, hyoung⟩ := hrenewed c hc
    omega

/-- A due launch is a full scan unless its rows were refreshed by incremental scans. -/
theorem due_launch_full_iff {guard : SourceWorld P π → SourceAction κ P π → Prop}
    {w w' : SourceWorld P π} (hw : Reachable guard w) {t : ℕ} (hlast : w.lastFull = some t)
    (hdue : (t : ℤ) + w.source.interval ≤ w.clock) {pepperRotating : Bool} (hidle : w.active = none)
    (hlaunch : w.step (.launch .incremental pepperRotating : SourceAction κ P π) = some w')
    {s : ActiveScan P π} (hs : w'.active = some s) :
    s.row.mode = .full ↔ ¬ w.Refreshed pepperRotating := by
  have hmode : s.row.mode = (w.plan .incremental pepperRotating).2.mode := by
    rw [step_launch hidle] at hlaunch
    obtain rfl := Option.some.inj hlaunch
    obtain rfl := Option.some.inj hs
    rfl
  rw [← hw.dated.plan_incremental_iff hlast hdue, hmode]
  cases (w.plan .incremental pepperRotating).2.mode <;> simp

def plainCoverage (phase : ScanTaskKind) (objects scopes : ℤ) : CoveragePayload where
  version := "1"
  phase
  counts := ⟨objects, objects, objects, 0, 0⟩
  scope := ⟨some scopes, scopes, 0⟩
  reasons := []
  gaps := []
  gapsOmitted := 0

def discoverySteps (engine : EngineId) (pack : String) (specs : List (SpecContent ℕ)) :
    List (SourceAction ℕ ℕ ℕ) :=
  [.task 0 (.lease engine pack),
    .task 0 (.results
      { idempotencyKey := ⟨0, 1⟩
        status := .completed
        taskSpecs := specs.map fun content => { label := content.scope }
        coverage := some (plainCoverage .discovery 0 specs.length) } [] specs)]

def fetchSteps (i : ℕ) (engine : EngineId) (pack : String) (content : SpecContent ℕ)
    (position : ℕ) : List (SourceAction ℕ ℕ ℕ) :=
  [.task i (.lease engine pack),
    .task i (.results
      { idempotencyKey := ⟨i, 1⟩
        status := .completed
        coverage := some (plainCoverage .fetch content.pieces.length 0)
        cursor := some ⟨content.scope, "1", some position⟩ } content.pieces [])]

def spaceScan (requested : ScanMode) (pieces : List ℕ) (position : ℕ) :
    List (SourceAction ℕ ℕ ℕ) :=
  [.launch requested false] ++ discoverySteps 1 "1" [⟨"OPS", pieces⟩] ++
    fetchSteps 1 1 "1" ⟨"OPS", pieces⟩ position ++ [.finalize]

def days (n : ℕ) : ℕ := n * day.toNat

theorem due_launch_full_after_quiet_week : ∃ (w w' : SourceWorld ℕ ℕ) (s : ActiveScan ℕ ℕ),
    w.lastFull = some 0 ∧
      w.step (.launch .incremental false : SourceAction ℕ ℕ ℕ) = some w' ∧
      w'.active = some s ∧ s.row.mode = .full ∧ ¬ w.Refreshed false := by
  have hrun : (run (fun _ _ => True) { source := { updatedAt := 0 } }
      ([.fleet [{ rulepack := some "1" }]] ++ spaceScan .full [0, 1] 1 ++
        [.tick (days 7)])).any (fun w => w.lastFull = some 0 ∧ w.active.isNone ∧
          (w.clock, w.source.interval) = (days 7, 7 * day) ∧
          (w.plan .incremental false).2.mode = .full) := by decide +kernel
  obtain ⟨w, hw, h⟩ := (Option.any_eq_true _ _).1 hrun
  simp only [Option.isNone_iff_eq_none, decide_eq_true_eq] at h
  obtain ⟨hlast, hidle, htimes, hmode⟩ := h
  have hdue : ((0 : ℕ) : ℤ) + w.source.interval ≤ w.clock := by
    rw [(Prod.mk.inj htimes).1, (Prod.mk.inj htimes).2]
    decide
  have hstep := step_launch (κ := ℕ) hidle .incremental false
  exact ⟨w, _, _, hlast, hstep, rfl, hmode,
    (due_launch_full_iff ((Reachable.start _).run hw) hlast hdue hidle hstep rfl).1 hmode⟩

/-- One incremental scan in the week, and the full scan that is due does not happen. -/
theorem due_launch_can_stay_incremental : ∃ (w w' : SourceWorld ℕ ℕ) (s : ActiveScan ℕ ℕ),
    Reachable (fun (_ : SourceWorld ℕ ℕ) (_ : SourceAction ℕ ℕ ℕ) => True) w ∧
      w.lastFull = some 0 ∧ ((0 : ℕ) : ℤ) + w.source.interval ≤ w.clock ∧
      w.step (.launch .incremental false : SourceAction ℕ ℕ ℕ) = some w' ∧
      w'.active = some s ∧ s.row.mode = .incremental := by
  have hrun : (run (fun _ _ => True) { source := { updatedAt := 0 } }
      ([.fleet [{ rulepack := some "1" }]] ++ spaceScan .full [0, 1] 1 ++ [.tick (days 4)] ++
        spaceScan .incremental [2] 2 ++ [.tick (days 4)])).any
        (fun w => w.lastFull = some 0 ∧ w.active.isNone ∧
          (w.clock, w.source.interval) = (days 8, 7 * day) ∧
          (w.plan .incremental false).2.mode = .incremental) := by decide +kernel
  obtain ⟨w, hw, h⟩ := (Option.any_eq_true _ _).1 hrun
  simp only [Option.isNone_iff_eq_none, decide_eq_true_eq] at h
  obtain ⟨hlast, hidle, htimes, hmode⟩ := h
  refine ⟨w, _, _, (Reachable.start _).run hw, hlast, ?_, step_launch hidle _ _, rfl, hmode⟩
  rw [(Prod.mk.inj htimes).1, (Prod.mk.inj htimes).2]
  decide

end SourceWorld

end IcebergSST
