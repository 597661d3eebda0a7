import IcebergSST.Attempt

/-!
# The life of one fetch task

`World` is a task's rows with at most one engine working on it. Leases are granted and
reclaimed, engines advance, report or die at any point, heartbeats renew, operators
cancel, and the other tasks of the scan report in between. An engine that no longer
holds the lease may still send; nothing it sends is accepted, since no two engines share
a token here.

The invariant relates the rows to the attempts: the API's batches are those accepted
from each attempt in turn, and the coverage and tallies stored are what these batches,
and the results that ended the task, add up to.
-/

namespace IcebergSST

variable {κ β χ ρ : Type}

/-- Who asks for the lease, and what the API's answer will carry besides the task. -/
structure Grant (κ β : Type) where
  engine : EngineId
  rulepackVersion : String
  referenceKey : CoverageObjectKind → β → GapReference
  suppresses : κ → Bool
  taskReference : β
  checkpoints : Bool

/-- The row `POST /scan-tasks/{id}/lease` leaves: claimed, and without a resume point
that was taken under another configuration. -/
def leasedDb (db : Db χ ρ) : Db χ ρ :=
  if db.task.checkpoint.isSome ∧ ¬ checkpointStillValid db.task db.scan then discardCheckpoint db
  else db

def leaseTask (db : Db χ ρ) (g : Grant κ β) : Option (Db χ ρ × Lease κ β χ) :=
  (claimTask db g.engine).map fun claimed =>
    let db := leasedDb claimed
    (db,
      { engine := g.engine
        idempotencyKey := ⟨db.task.id, db.task.attempts⟩
        rulepackVersion := g.rulepackVersion
        checkpoint := db.task.checkpoint
        checkpointSequence := db.task.checkpointSequence
        referenceKey := g.referenceKey
        suppresses := g.suppresses
        taskReference := g.taskReference
        checkpoints := g.checkpoints })

/-- An attempt that is over: what it was granted, how far it got, and which of its
batches the API had accepted. -/
structure AttemptLog (κ β χ ρ : Type) where
  lease : Lease κ β χ
  history : Events κ β χ ρ
  accepted : List (ProgressSubmission κ χ)

def Runner.log (r : Runner κ β χ ρ) (api : ApiState κ χ ρ) : AttemptLog κ β χ ρ :=
  ⟨r.lease, r.history, r.accepted api⟩

/-- `past` and `others`, the tallies the scan has from elsewhere, are history variables. -/
structure World (κ β χ ρ : Type) where
  api : ApiState κ χ ρ
  runner : Option (Runner κ β χ ρ) := none
  past : List (AttemptLog κ β χ ρ) := []
  others : Counts := 0

inductive Action (κ β χ ρ : Type)
  | lease (grant : Grant κ β) (now : ℚ)
  | connector (e : ConnectorEvent κ β χ ρ) (t : Tick)
  | finish (exit : Exit) (fates : List Fate)
  | die
  | renew
  | reclaim
  | cancel
  | otherReport (counts : Counts) (rulepackVersion : Option String)
  | strayProgress (engine : EngineId) (body : ProgressSubmission κ χ)
  | strayResults (engine : EngineId) (body : ResultsSubmission κ ρ)

namespace World

def start (scan : Scan) (id : ℕ) : World κ β χ ρ where
  api := { db := { scan, task := { id, kind := .fetch } } }
  others := scan.counts

def ended (w : World κ β χ ρ) (r : Runner κ β χ ρ) (api : ApiState κ χ ρ) : World κ β χ ρ :=
  { w with api, runner := none, past := w.past ++ [r.log api] }

def withDb (w : World κ β χ ρ) (db : Db χ ρ) : World κ β χ ρ := { w with api := { w.api with db } }

/-- Every attempt so far, the one in progress last. -/
def attempts (w : World κ β χ ρ) : List (AttemptLog κ β χ ρ) :=
  w.past ++ (w.runner.map (fun r => r.log w.api)).toList

def step [DecidableEq χ] (w : World κ β χ ρ) : Action κ β χ ρ → Option (World κ β χ ρ)
  | .lease g now =>
      match w.runner, leaseTask w.api.db g with
      | none, some (db, lease) =>
          some { w.withDb db with
            runner := some { lease, fetch := .start lease now, base := w.api.batches.length } }
      | _, _ => none
  | .connector e t =>
      match w.runner with
      | none => none
      | some r =>
          if r.fetch.exit = none then
            let moved := r.step e t w.api
            some { w with api := moved.2, runner := some moved.1 }
          else none
  | .finish exit fates =>
      w.runner.map (fun r => w.ended r (r.fetch.finish r.lease exit fates w.api))
  | .die => w.runner.map (fun r => w.ended r w.api)
  | .renew => some (w.withDb (renewLease w.api.db))
  | .reclaim => some (w.withDb (reclaimExpiredLease w.api.db))
  | .cancel => some (w.withDb (cancelTask w.api.db))
  | .otherReport counts version =>
      some { w.withDb
          { w.api.db with
            scan := recordRulepack (mergeScanCounts w.api.db.scan counts) version } with
        others := w.others + counts }
  | .strayProgress engine body =>
      if w.api.db.task.engineId = some engine then none
      else some { w with api := (w.api.submitProgress engine body).1 }
  | .strayResults engine body =>
      if w.api.db.task.engineId = some engine then none
      else some { w with api := (w.api.submitResults engine body).1 }

inductive Reachable [DecidableEq χ] (guard : World κ β χ ρ → Action κ β χ ρ → Prop) :
    World κ β χ ρ → Prop
  | start (scan : Scan) (id : ℕ) : Reachable guard (.start scan id)
  | step {w w' : World κ β χ ρ} {a : Action κ β χ ρ} : Reachable guard w → guard w a →
      w.step a = some w' → Reachable guard w'

def run [DecidableEq χ] (guard : World κ β χ ρ → Action κ β χ ρ → Prop)
    [∀ w a, Decidable (guard w a)] (w : World κ β χ ρ) :
    List (Action κ β χ ρ) → Option (World κ β χ ρ)
  | [] => some w
  | a :: as => if guard w a then (w.step a).bind (run guard · as) else none

theorem Reachable.run [DecidableEq χ] {guard : World κ β χ ρ → Action κ β χ ρ → Prop}
    [∀ w a, Decidable (guard w a)] {w w' : World κ β χ ρ} (hw : Reachable guard w)
    {as : List (Action κ β χ ρ)} (h : w.run guard as = some w') : Reachable guard w' := by
  induction as generalizing w with
  | nil => exact Option.some.inj h ▸ hw
  | cons a as ih =>
      unfold World.run at h
      split_ifs at h with ha
      obtain ⟨w₁, hstep, hrun⟩ := Option.bind_eq_some_iff.1 h
      exact ih (hw.step ha hstep) hrun

/-- The condition a step is subject to when it composes a batch. -/
def Permits [DecidableEq χ] (G : χ → Events κ β χ ρ → Prop) (w : World κ β χ ρ) :
    Action κ β χ ρ → Prop
  | .connector e t => ∀ r ∈ w.runner, r.Permits G e t
  | _ => True

end World

theorem leaseTask_eq_some {db db' : Db χ ρ} {g : Grant κ β} {lease : Lease κ β χ}
    (h : leaseTask db g = some (db', lease)) :
    db.task.status = .queued ∧
      db' = leasedDb { db with
        task := { db.task with
          status := .leased
          engineId := some g.engine
          attempts := db.task.attempts + 1 } } ∧
      lease.engine = g.engine ∧ lease.checkpoint = db'.task.checkpoint ∧
      lease.checkpointSequence = db'.task.checkpointSequence := by
  obtain ⟨claimed, hclaim, heq⟩ := Option.map_eq_some_iff.1 h
  unfold claimTask at hclaim
  split_ifs at hclaim with hq
  obtain rfl := Option.some.inj hclaim
  obtain ⟨rfl, rfl⟩ := Prod.mk.inj heq
  exact ⟨hq, rfl, rfl, rfl, rfl⟩

/-- Everything an action can do: a lease begins an attempt, an event advances it, a
report or a death ends it, and every other action only rewrites the rows. -/
theorem World.step_cases [DecidableEq χ] {w w' : World κ β χ ρ} {a : Action κ β χ ρ}
    (h : w.step a = some w') :
    (∃ g now db lease, a = .lease g now ∧ w.runner = none ∧
      leaseTask w.api.db g = some (db, lease) ∧
      w' = { w.withDb db with
        runner := some { lease, fetch := .start lease now, base := w.api.batches.length } }) ∨
    (∃ e t r, a = .connector e t ∧ w.runner = some r ∧ r.fetch.exit = none ∧
      w' = { w with api := (r.step e t w.api).2, runner := some (r.step e t w.api).1 }) ∨
    (∃ exit fates r, a = .finish exit fates ∧ w.runner = some r ∧
      w' = w.ended r (r.fetch.finish r.lease exit fates w.api)) ∨
    (∃ r, a = .die ∧ w.runner = some r ∧ w' = w.ended r w.api) ∨
    (a = .renew ∧ w' = w.withDb (renewLease w.api.db)) ∨
    (a = .reclaim ∧ w' = w.withDb (reclaimExpiredLease w.api.db)) ∨
    (a = .cancel ∧ w' = w.withDb (cancelTask w.api.db)) ∨
    (∃ counts version, a = .otherReport counts version ∧
      w' = { w.withDb { w.api.db with
        scan := recordRulepack (mergeScanCounts w.api.db.scan counts) version } with
        others := w.others + counts }) ∨
    ((∃ engine body, a = .strayProgress engine body) ∨
      (∃ engine body, a = .strayResults engine body)) ∧ w' = w := by
  cases a with
  | lease g now =>
      left
      simp only [World.step] at h
      cases hr : w.runner with
      | some r => rw [hr] at h; cases h
      | none =>
          cases hl : leaseTask w.api.db g with
          | none => rw [hr, hl] at h; cases h
          | some p =>
              rw [hr, hl] at h
              exact ⟨g, now, p.1, p.2, rfl, rfl, hl, (Option.some.inj h).symm⟩
  | connector e t =>
      right; left
      simp only [World.step] at h
      cases hr : w.runner with
      | none => rw [hr] at h; cases h
      | some r =>
          rw [hr] at h
          by_cases hexit : r.fetch.exit = none
          · simp only [hexit, if_true] at h
            exact ⟨e, t, r, rfl, rfl, hexit, (Option.some.inj h).symm⟩
          · simp only [hexit, if_false, reduceCtorEq] at h
  | finish exit fates =>
      right; right; left
      obtain ⟨r, hr, heq⟩ := Option.map_eq_some_iff.1 h
      exact ⟨exit, fates, r, rfl, hr, heq.symm⟩
  | die =>
      right; right; right; left
      obtain ⟨r, hr, heq⟩ := Option.map_eq_some_iff.1 h
      exact ⟨r, rfl, hr, heq.symm⟩
  | renew => exact Or.inr (Or.inr (Or.inr (Or.inr (Or.inl ⟨rfl, (Option.some.inj h).symm⟩))))
  | reclaim =>
      exact Or.inr (Or.inr (Or.inr (Or.inr (Or.inr (Or.inl ⟨rfl, (Option.some.inj h).symm⟩)))))
  | cancel =>
      iterate 6 right
      exact Or.inl ⟨rfl, (Option.some.inj h).symm⟩
  | otherReport counts version =>
      iterate 7 right
      exact Or.inl ⟨counts, version, rfl, (Option.some.inj h).symm⟩
  | strayProgress engine body =>
      iterate 8 right
      refine ⟨Or.inl ⟨engine, body, rfl⟩, ?_⟩
      simp only [World.step] at h
      split_ifs at h with hheld
      obtain rfl := Option.some.inj h
      rcases submitProgress_cases w.api engine body with ⟨heq, _⟩ | ⟨htaken, _⟩
      · rw [heq]
      · exact absurd htaken.engine hheld
  | strayResults engine body =>
      iterate 8 right
      refine ⟨Or.inr ⟨engine, body, rfl⟩, ?_⟩
      simp only [World.step] at h
      split_ifs at h with hheld
      obtain rfl := Option.some.inj h
      rcases submitResults_cases w.api engine body with heq | htaken
      · rw [heq]
      · exfalso
        have hr := htaken.unrefused
        simp only [resultsRefusal, ne_eq, hheld, not_false_eq_true, if_true, reduceCtorEq] at hr

def ResultsSubmission.totals (body : ResultsSubmission κ ρ) : Totals :=
  body.coverage.elim 0 CoveragePayload.totals

/-- What everything the API took adds up to. -/
def ApiState.takenTotals (api : ApiState κ χ ρ) : Totals :=
  (api.batches.map ProgressSubmission.totals).sum + (api.results.map ResultsSubmission.totals).sum

def ApiState.takenCounts (api : ApiState κ χ ρ) : Counts :=
  (api.batches.map ProgressSubmission.counts).sum +
    (api.results.map ResultsSubmission.counts).sum

structure ApiState.Sound (api : ApiState κ χ ρ) : Prop where
  kind : api.db.task.kind = .fetch
  sequence : api.db.task.checkpointSequence = api.batches.length
  phase : ∀ r ∈ api.db.task.coverage, r.payload.phase = .fetch
  unreported : api.db.task.status.Terminal = false → api.results = []
  coverage : api.db.task.status ≠ .cancelled →
    storedTotals api.db.task.coverage = api.takenTotals
  completed : api.db.task.status = .completed → ∃ r, api.db.task.coverage = some r ∧
    r.payload.counts.failed = 0 ∧ r.payload.scope.gaps = 0
  valid : ∀ body ∈ api.results, body.Valid

namespace ApiState
variable {api api' : ApiState κ χ ρ} {engine : EngineId}

theorem Sound.storedTaskReport (hs : api.Sound) :
    storedTaskReport api.db.task = api.db.task.coverage :=
  storedTaskReport_eq fun r hr => (hs.phase r hr).trans hs.kind.symm

theorem leased_ne {s : ScanTaskStatus} (h : s.Leased) : s ≠ .cancelled ∧ s ≠ .completed := by
  cases s <;> simp_all [ScanTaskStatus.Leased]

theorem Sound.batchTaken (hs : api.Sound) {body : ProgressSubmission κ χ}
    (ht : BatchTaken api api' engine body) (hphase : ∀ c ∈ body.coverage, c.phase = .fetch) :
    api'.Sound := by
  have hlive := ScanTaskStatus.not_terminal_of_leased ht.leased
  obtain ⟨coverage, hcov, htask⟩ := ht.task
  have hstatus : api'.db.task.status = api.db.task.status := by rw [htask]
  have hresults : api.results = [] := hs.unreported hlive
  have hstored := hs.coverage (leased_ne ht.leased).1
  have htaken : api'.takenTotals = api.takenTotals + body.totals := by
    simp [takenTotals, ht.batches, ht.results, hresults]
  refine ⟨?_, ?_, ?_, ?_, ?_, ?_, ht.results ▸ hs.valid⟩
  · rw [htask]
    exact hs.kind
  · have hseq := ht.sequence
    rw [hs.sequence] at hseq
    rw [htask, ht.batches, List.length_append]
    exact hseq.symm
  · intro r hr
    rw [htask] at hr
    change coverage = some r at hr
    rcases hcov with ⟨_, rfl⟩ | ⟨delta, merged, hb, rfl, hm⟩
    · exact hs.phase r hr
    · obtain rfl := Option.some.inj hr
      exact (mergeTaskReport_phase hm).trans (hphase _ hb)
  · intro _
    rw [ht.results]
    exact hresults
  · intro _
    rw [htaken, ← hstored, htask]
    change storedTotals coverage = _
    rcases hcov with ⟨hb, rfl⟩ | ⟨delta, merged, hb, rfl, hm⟩
    · rw [ProgressSubmission.totals, hb]
      exact (add_zero _).symm
    · rw [hs.storedTaskReport] at hm
      rw [ProgressSubmission.totals, hb]
      exact storedTotals_mergeTaskReport hm
  · intro hc
    rw [hstatus] at hc
    exact absurd hc (leased_ne ht.leased).2

theorem resultsTaken_status {body : ResultsSubmission κ ρ}
    (ht : ResultsTaken api api' engine body) :
    body.status = .completed ∨ body.status = .failed := by
  by_contra hno
  have hr := ht.unrefused
  push Not at hno
  unfold resultsRefusal at hr
  split_ifs at hr

theorem resultsTaken_phase {body : ResultsSubmission κ ρ} (ht : ResultsTaken api api' engine body) :
    ∀ c ∈ body.coverage, c.phase = api.db.task.kind := by
  by_contra hno
  have hr := ht.unrefused
  have hany : body.coverage.any (fun c => c.phase ≠ api.db.task.kind) := by
    push Not at hno
    obtain ⟨c, hc, hne⟩ := hno
    obtain hc : body.coverage = some c := hc
    simp [hc, hne]
  unfold resultsRefusal at hr
  split_ifs at hr

/-- Accepted results end the task, and what is stored is still the sum of what was
taken. -/
theorem Sound.resultsTaken (hs : api.Sound) {body : ResultsSubmission κ ρ}
    (ht : ResultsTaken api api' engine body) (hsome : body.coverage.isSome) : api'.Sound := by
  have hlive := ScanTaskStatus.not_terminal_of_leased ht.leased
  have hresults : api.results = [] := hs.unreported hlive
  have hstored := hs.coverage (leased_ne ht.leased).1
  have hreported := fun cov =>
    effectiveOutcome_ne_cancelled body.counts cov (resultsTaken_status ht)
  have hphase := resultsTaken_phase ht
  rw [hs.kind] at hphase
  have htaken : api'.takenTotals = api.takenTotals + body.totals := by
    simp [takenTotals, ht.batches, ht.results, hresults]
  obtain ⟨delta, merged, hdelta, hmerged, htask⟩ := ht.task
  cases delta with
  | none =>
      rw [hdelta] at hsome
      cases hsome
  | some delta =>
      have hdphase : delta.payload.phase = .fetch := hphase _ hdelta
      have hbody : body.totals = delta.totals := by
        rw [ResultsSubmission.totals, hdelta]
        rfl
      -- with no batch before it the report stands alone, otherwise it is merged
      have hreport : ∃ r, merged = some r ∧ r.payload.phase = .fetch ∧
          r.totals = api.takenTotals + delta.totals := by
        unfold mergedCoverage at hmerged
        split_ifs at hmerged with hpos
        · rw [hs.storedTaskReport] at hmerged
          obtain ⟨r, hr, rfl⟩ := Option.map_eq_some_iff.1 hmerged
          refine ⟨r, rfl, (mergeTaskReport_phase hr).trans hdphase, ?_⟩
          rw [← hstored]
          exact storedTotals_mergeTaskReport hr
        · obtain rfl := Option.some.inj hmerged
          refine ⟨delta, rfl, hdphase, ?_⟩
          have hnil : api.batches = [] := by
            rw [← List.length_eq_zero_iff, ← hs.sequence, ← ht.sequence]
            omega
          simp [takenTotals, hnil, hresults]
      obtain ⟨r, rfl, hrphase, htotals⟩ := hreport
      have hcov : api'.db.task.coverage = some r := by
        rw [htask]
        rfl
      have hstatus : api'.db.task.status = (effectiveOutcome body body.counts (some r)).1 := by
        rw [htask]
        rfl
      refine ⟨?_, ?_, ?_, ?_, ?_, ?_, ?_⟩
      · rw [htask]
        exact hs.kind
      · rw [htask, ht.batches]
        exact hs.sequence
      · intro r' hr'
        rw [hcov] at hr'
        obtain rfl := Option.some.inj hr'
        exact hrphase
      · intro hterm
        rw [hstatus, (hreported _).1] at hterm
        cases hterm
      · intro _
        rw [hcov, htaken, hbody]
        exact htotals
      · intro hdone
        rw [hstatus] at hdone
        exact ⟨r, hcov, effectiveOutcome_completed hdone⟩
      · rw [ht.results, hresults]
        intro body' hbody'
        obtain rfl := List.mem_singleton.1 hbody'
        exact ht.valid

/-- Rewriting the row of a live task, or one whose status is kept, keeps the sums. -/
theorem Sound.rewrite (hs : api.Sound) {db : Db χ ρ} (hkind : db.task.kind = api.db.task.kind)
    (hseq : db.task.checkpointSequence = api.db.task.checkpointSequence)
    (hcov : db.task.coverage = api.db.task.coverage)
    (hstatus : db.task.status = api.db.task.status ∨
      api.db.task.status.Terminal = false ∧ db.task.status.Terminal = false) :
    ({ api with db } : ApiState κ χ ρ).Sound where
  kind := hkind.trans hs.kind
  sequence := hseq.trans hs.sequence
  phase := by
    intro r hr
    exact hs.phase r (hcov ▸ hr)
  unreported := by
    intro hlive
    rcases hstatus with hsame | ⟨hlive', _⟩
    · exact hs.unreported (hsame ▸ hlive)
    · exact hs.unreported hlive'
  coverage := by
    intro hne
    have hne' : api.db.task.status ≠ .cancelled := by
      rcases hstatus with hsame | ⟨hlive', _⟩
      · exact hsame ▸ hne
      · intro hc
        rw [hc] at hlive'
        cases hlive'
    exact (congrArg storedTotals hcov).trans (hs.coverage hne')
  completed := by
    intro hdone
    change db.task.status = .completed at hdone
    rcases hstatus with hsame | ⟨_, hlive⟩
    · obtain ⟨r, hr, hclean⟩ := hs.completed (hsame ▸ hdone)
      exact ⟨r, hcov.trans hr, hclean⟩
    · rw [hdone] at hlive
      cases hlive
  valid := hs.valid

theorem Sound.cancel (hs : api.Sound) :
    ({ api with db := cancelTask api.db } : ApiState κ χ ρ).Sound := by
  unfold cancelTask
  split_ifs with hterm
  · exact hs
  · refine ⟨hs.kind, hs.sequence, ?_, nofun, fun h => absurd rfl h, nofun, hs.valid⟩
    intro r hr
    change (cancelledReport api.db.task <|> api.db.task.coverage) = some r at hr
    cases hc : cancelledReport api.db.task with
    | none =>
        rw [hc] at hr
        exact hs.phase r hr
    | some report =>
        rw [hc] at hr
        obtain rfl : report = r := Option.some.inj hr
        exact (mergeTaskReport_phase hc).trans hs.kind

end ApiState

structure World.Sound (G : χ → Events κ β χ ρ → Prop) (w : World κ β χ ρ) : Prop where
  api : w.api.Sound
  counts : w.api.db.scan.counts = w.others + w.api.takenCounts
  runner : ∀ r ∈ w.runner, r.Sound G w.api
  past : ∀ a ∈ w.past, Accounted G a.lease a.history a.accepted
  accepted : w.attempts.flatMap AttemptLog.accepted = w.api.batches

section Rows
variable {api api' : ApiState κ χ ρ} {engine : EngineId} {others : Counts}

@[simp] theorem recordRulepack_counts (scan : Scan) (version : Option String) :
    (recordRulepack scan version).counts = scan.counts := by
  unfold recordRulepack
  split_ifs <;> rfl

/-- The scan's tallies are those of the submissions taken, and those from elsewhere. -/
def ApiState.Tallied (others : Counts) (api : ApiState κ χ ρ) : Prop :=
  api.db.scan.counts = others + api.takenCounts

theorem BatchTaken.tallied {body : ProgressSubmission κ χ} (ht : BatchTaken api api' engine body)
    (hs : api.Tallied others) : api'.Tallied others := by
  unfold ApiState.Tallied at hs ⊢
  rw [ht.scan, recordRulepack_counts, mergeScanCounts]
  simp only [ApiState.takenCounts, ht.batches, ht.results, List.map_append, List.sum_append,
    List.map_singleton, List.sum_singleton] at hs ⊢
  rw [hs]
  abel

theorem ResultsTaken.tallied {body : ResultsSubmission κ ρ} (ht : ResultsTaken api api' engine body)
    (hs : api.Tallied others) : api'.Tallied others := by
  unfold ApiState.Tallied at hs ⊢
  rw [ht.scan, recordRulepack_counts, mergeScanCounts]
  simp only [ApiState.takenCounts, ht.batches, ht.results, List.map_append, List.sum_append,
    List.map_singleton, List.sum_singleton] at hs ⊢
  rw [hs]
  abel

theorem Fetch.report_coverage_isSome {lease : Lease κ β χ} {f : Fetch κ β χ ρ} {exit : Exit}
    {body : ResultsSubmission κ ρ} (h : f.report lease exit = some body) :
    body.coverage.isSome := by
  unfold Fetch.report at h
  split_ifs at h
  rw [← Option.some.inj h]
  rfl

theorem leasedDb_task (db : Db χ ρ) :
    (leasedDb db).scan = db.scan ∧ (leasedDb db).task.kind = db.task.kind ∧
      (leasedDb db).task.status = db.task.status ∧
      (leasedDb db).task.coverage = db.task.coverage ∧
      (leasedDb db).task.checkpointSequence = db.task.checkpointSequence := by
  unfold leasedDb
  split_ifs <;> exact ⟨rfl, rfl, rfl, rfl, rfl⟩

end Rows

namespace Runner
variable {G : χ → Events κ β χ ρ → Prop} {r : Runner κ β χ ρ} {api : ApiState κ χ ρ}

theorem Sound.withDb (hs : r.Sound G api) {db : Db χ ρ}
    (hseq : db.task.checkpointSequence = api.db.task.checkpointSequence) :
    r.Sound G { api with db } where
  base_le := hs.base_le
  traces := hs.traces
  delivery := by
    intro b hb
    obtain ⟨hbase, hsound⟩ := hs.delivery b hb
    exact ⟨hbase, hseq ▸ hsound⟩
  idle := hs.idle

theorem Sound.accounted (hs : r.Sound G api) : Accounted G r.lease r.history (r.accepted api) := by
  cases hb : r.fetch.batcher with
  | none =>
      rw [hs.idle hb]
      exact ⟨[], [], Boundary.initial, .nil, List.nil_prefix, rfl⟩
  | some b => exact (hs.delivery b hb).2.accounted

theorem sound_start (lease : Lease κ β χ) (now : ℚ)
    (hseq : lease.checkpointSequence = api.db.task.checkpointSequence) :
    Sound G { lease, fetch := .start lease now, base := api.batches.length } api where
  base_le := le_rfl
  traces := Fetch.traces_start lease now
  delivery := by
    intro b hb
    change (Fetch.start lease now : Fetch κ β χ ρ).batcher = some b at hb
    simp only [Fetch.start] at hb
    split_ifs at hb
    obtain rfl := Option.some.inj hb
    refine ⟨le_rfl, [], [], [], ⟨Or.inl ⟨hseq.symm, rfl⟩, .nil, List.nil_prefix, ?_, ?_⟩, ?_⟩
    · intro _ hnone
      cases hnone
    · intro _ hnone
      cases hnone
    · rw [List.drop_length]
      rfl
  idle := fun _ => List.drop_length

end Runner

namespace World
variable {G : χ → Events κ β χ ρ → Prop} {w w' : World κ β χ ρ}

theorem attempts_of_none (h : w.runner = none) : w.attempts = w.past := by
  rw [attempts, h]
  exact List.append_nil _

theorem attempts_of_some {r : Runner κ β χ ρ} (h : w.runner = some r) :
    w.attempts = w.past ++ [r.log w.api] := by
  rw [attempts, h]
  rfl

theorem Sound.past_accepted (hs : w.Sound G) {r : Runner κ β χ ρ} (hr : w.runner = some r) :
    w.past.flatMap AttemptLog.accepted = w.api.batches.take r.base := by
  have ha := hs.accepted
  rw [attempts_of_some hr, List.flatMap_append, List.flatMap_singleton] at ha
  change _ ++ w.api.batches.drop r.base = _ at ha
  exact List.append_cancel_right (ha.trans (List.take_append_drop r.base _).symm)

theorem sound_start (scan : Scan) (id : ℕ) : (start scan id : World κ β χ ρ).Sound G where
  api := by
    refine ⟨rfl, rfl, ?_, fun _ => rfl, fun _ => (add_zero (0 : Totals)).symm, ?_, ?_⟩
    · intro _ hnone
      cases hnone
    · intro hdone
      cases hdone
    · intro _ hnil
      cases hnil
  counts := by
    change scan.counts = scan.counts + (0 + 0)
    rw [add_zero, add_zero]
  runner := by
    intro _ hnone
    cases hnone
  past := by
    intro _ hnil
    cases hnil
  accepted := rfl

theorem Sound.withDb (hs : w.Sound G) {db : Db χ ρ} (hscan : db.scan = w.api.db.scan)
    (hseq : db.task.checkpointSequence = w.api.db.task.checkpointSequence)
    (hapi : ({ w.api with db } : ApiState κ χ ρ).Sound) : (w.withDb db).Sound G where
  api := hapi
  counts := by
    change db.scan.counts = _
    rw [hscan]
    exact hs.counts
  runner := fun r hr => (hs.runner r hr).withDb hseq
  past := hs.past
  accepted := by
    have ha := hs.accepted
    cases hr : w.runner with
    | none =>
        rw [attempts_of_none hr] at ha
        rw [attempts_of_none (w := w.withDb db) hr]
        exact ha
    | some r =>
        rw [attempts_of_some hr] at ha
        rw [attempts_of_some (w := w.withDb db) hr]
        exact ha

theorem Sound.ended (hs : w.Sound G) {r : Runner κ β χ ρ} (hr : w.runner = some r)
    {api : ApiState κ χ ρ} (hapi : api.Sound) (htally : api.Tallied w.others)
    (hbatches : api.batches = w.api.batches) : (w.ended r api).Sound G where
  api := hapi
  counts := htally
  runner := by
    intro _ hnone
    cases hnone
  past := by
    intro a ha
    rcases List.mem_append.1 ha with ha | ha
    · exact hs.past a ha
    · obtain rfl := List.mem_singleton.1 ha
      have hacc := (hs.runner r hr).accounted
      simpa only [Runner.log, Runner.accepted, hbatches] using hacc
  accepted := by
    rw [attempts_of_none (w := w.ended r api) rfl]
    have ha := hs.accepted
    rw [attempts_of_some hr] at ha
    change (w.past ++ [r.log api]).flatMap AttemptLog.accepted = api.batches
    rw [hbatches, ← ha, List.flatMap_append, List.flatMap_append, List.flatMap_singleton,
      List.flatMap_singleton]
    simp only [Runner.log, Runner.accepted, hbatches]

variable [DecidableEq χ]

theorem Sound.connector (hs : w.Sound G) {r : Runner κ β χ ρ} (hr : w.runner = some r)
    (hexit : r.fetch.exit = none) {e : ConnectorEvent κ β χ ρ} {t : Tick} (hG : r.Permits G e t) :
    Sound G { w with api := (r.step e t w.api).2, runner := some (r.step e t w.api).1 } := by
  have hrun := hs.runner r hr
  have hP : ∀ (body : ProgressSubmission κ χ) (s : ApiState κ χ ρ), body.Fetched →
      (s.Sound ∧ s.Tallied w.others ∧ r.base ≤ s.batches.length ∧
        s.batches.take r.base = w.api.batches.take r.base) →
      ((s.submitProgress r.lease.engine body).1.Sound ∧
        (s.submitProgress r.lease.engine body).1.Tallied w.others ∧
        r.base ≤ (s.submitProgress r.lease.engine body).1.batches.length ∧
        (s.submitProgress r.lease.engine body).1.batches.take r.base =
          w.api.batches.take r.base) := by
    rintro body s hbody ⟨hsound, htally, hle, htake⟩
    rcases submitProgress_cases s r.lease.engine body with ⟨heq, _⟩ | ⟨ht, _⟩
    · rw [heq]
      exact ⟨hsound, htally, hle, htake⟩
    · refine ⟨hsound.batchTaken ht hbody, ht.tallied htally, ?_, ?_⟩
      · rw [ht.batches, List.length_append]
        omega
      · rw [ht.batches, List.take_append_of_le_length hle, htake]
  obtain ⟨hapi, htally, _, htake⟩ := hrun.step_preserves hP hG
    ⟨hs.api, hs.counts, hrun.base_le, rfl⟩
  refine ⟨hapi, htally, ?_, hs.past, ?_⟩
  · intro r' hr'
    obtain rfl := Option.some.inj hr'
    exact hrun.step hexit hG
  · rw [attempts_of_some rfl, List.flatMap_append, List.flatMap_singleton, hs.past_accepted hr]
    change w.api.batches.take r.base ++ (r.step e t w.api).2.batches.drop r.base = _
    rw [← htake, List.take_append_drop]

theorem Sound.step (hs : w.Sound G) {a : Action κ β χ ρ} (hG : w.Permits G a)
    (hstep : w.step a = some w') : w'.Sound G := by
  rcases step_cases hstep with ⟨g, now, db, lease, rfl, hr, hlease, rfl⟩ |
    ⟨e, t, r, rfl, hr, hexit, rfl⟩ | ⟨exit, fates, r, rfl, hr, rfl⟩ | ⟨r, rfl, hr, rfl⟩ |
    ⟨rfl, rfl⟩ | ⟨rfl, rfl⟩ | ⟨rfl, rfl⟩ | ⟨counts, version, rfl, rfl⟩ | ⟨_, rfl⟩
  · -- a lease
    obtain ⟨hqueued, rfl, _, _, hlseq⟩ := leaseTask_eq_some hlease
    obtain ⟨hscan, hkind, hstatus, hcov, hseq⟩ := leasedDb_task { w.api.db with
      task := { w.api.db.task with
        status := .leased
        engineId := some g.engine
        attempts := w.api.db.task.attempts + 1 } }
    have hrows := hs.withDb hscan hseq
      (hs.api.rewrite hkind hseq hcov (Or.inr (by rw [hqueued, hstatus]; exact ⟨rfl, rfl⟩)))
    refine ⟨hrows.api, hrows.counts, ?_, hs.past, ?_⟩
    · intro r hr'
      obtain rfl := Option.some.inj hr'
      exact @Runner.sound_start κ β χ ρ G (w.withDb _).api lease now hlseq
    · have ha := hs.accepted
      rw [attempts_of_none hr] at ha
      rw [attempts_of_some rfl, List.flatMap_append, List.flatMap_singleton]
      change w.past.flatMap AttemptLog.accepted ++ w.api.batches.drop w.api.batches.length = _
      rw [ha, List.drop_length, List.append_nil]
      rfl
  · exact hs.connector hr hexit (hG r hr)
  · rcases r.fetch.finish_cases r.lease exit fates with heq | ⟨body, hb, ht⟩
    · rw [heq]
      exact hs.ended hr hs.api hs.counts rfl
    · exact hs.ended hr (hs.api.resultsTaken ht (Fetch.report_coverage_isSome hb))
        (ht.tallied hs.counts) ht.batches
  · exact hs.ended hr hs.api hs.counts rfl
  · by_cases hl : w.api.db.task.status.Leased
    · rw [renewLease, if_pos hl]
      exact hs.withDb rfl rfl (hs.api.rewrite rfl rfl rfl
        (Or.inr ⟨ScanTaskStatus.not_terminal_of_leased hl, rfl⟩))
    · rw [renewLease, if_neg hl]
      exact hs
  · by_cases hl : w.api.db.task.status.Leased
    · rw [reclaimExpiredLease, if_pos hl]
      exact hs.withDb rfl rfl (hs.api.rewrite rfl rfl rfl
        (Or.inr ⟨ScanTaskStatus.not_terminal_of_leased hl, rfl⟩))
    · rw [reclaimExpiredLease, if_neg hl]
      exact hs
  · refine hs.withDb ?_ ?_ hs.api.cancel
    all_goals unfold cancelTask; split_ifs <;> rfl
  · -- another task of the scan reports
    refine ⟨hs.api.rewrite rfl rfl rfl (Or.inl rfl), ?_, ?_, hs.past, ?_⟩
    · change (recordRulepack (mergeScanCounts w.api.db.scan counts) version).counts = _
      rw [recordRulepack_counts, mergeScanCounts]
      change w.api.db.scan.counts + counts = w.others + counts + w.api.takenCounts
      rw [hs.counts]
      abel
    · intro r hr
      exact (hs.runner r hr).withDb rfl
    · exact (hs.withDb (w := w) rfl rfl hs.api).accepted
  · exact hs

/-- In every run whose steps meet the condition, the rows are accounted for by the
attempts. -/
theorem Reachable.sound {guard : World κ β χ ρ → Action κ β χ ρ → Prop}
    (hguard : ∀ w a, guard w a → w.Permits G a) (hw : Reachable guard w) : w.Sound G := by
  induction hw with
  | start scan id => exact sound_start scan id
  | step _ ha hstep ih => exact ih.step (hguard _ _ ha) hstep

end World

end IcebergSST
