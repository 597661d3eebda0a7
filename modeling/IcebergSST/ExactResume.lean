import IcebergSST.CrashResume

/-!
# Batches that cover exactly what their checkpoint admits

A batch pairs the work of the last unit boundary with the checkpoint published last.
When that checkpoint was published between the boundary and the next recorded event,
the two describe the same events: the accepted batches then carry exactly what lies
before the stored checkpoint, and a chain of resumed attempts counts every event of
the source once.
-/

namespace IcebergSST

open Bookmark

variable {κ β χ ρ : Type}

/-- The checkpoint was published behind the last unit, before anything else was
recorded. -/
def Aligned [DecidableEq χ] (c : χ) (h : Events κ β χ ρ) : Prop :=
  cut h <+: before c h ∧ ∀ e ∈ (before c h).drop (cut h).length, e.Quiet

instance [DecidableEq κ] [DecidableEq β] [DecidableEq χ] [DecidableEq ρ] (c : χ)
    (h : Events κ β χ ρ) : Decidable (Aligned c h) :=
  inferInstanceAs (Decidable (_ ∧ ∀ e ∈ _, _))

section Quiet
variable {h : Events κ β χ ρ}

theorem totalsOf_quiet (hq : ∀ e ∈ h, e.Quiet) : totalsOf h = 0 := by
  induction h with
  | nil => rfl
  | cons e h ih =>
      have he : e.weight = 0 := ConnectorEvent.Quiet.weight (hq e List.mem_cons_self)
      rw [← List.singleton_append, totalsOf_append, totalsOf_singleton, he,
        ih (fun e' he' => hq e' (List.mem_cons_of_mem _ he')), add_zero]

theorem countsOf_quiet (hq : ∀ e ∈ h, e.Quiet) : countsOf h = 0 := by
  induction h with
  | nil => rfl
  | cons e h ih =>
      have he : e.tally = 0 := ConnectorEvent.Quiet.tally (hq e List.mem_cons_self)
      rw [← List.singleton_append, countsOf_append, countsOf_singleton, he,
        ih (fun e' he' => hq e' (List.mem_cons_of_mem _ he')), add_zero]

theorem candidatesOf_quiet (hq : ∀ e ∈ h, e.Quiet) : candidatesOf h = [] := by
  induction h with
  | nil => rfl
  | cons e h ih =>
      have he : e.candidates = [] := by
        apply e.candidates_of_not_isUnit
        have hqe := hq e List.mem_cons_self
        cases e <;> first | rfl | cases hqe
      rw [← List.singleton_append, candidatesOf_append, candidatesOf_singleton, he,
        ih (fun e' he' => hq e' (List.mem_cons_of_mem _ he')), List.nil_append]

end Quiet

section Aligned
variable [DecidableEq χ] {c : χ} {h : Events κ β χ ρ} {lease : Lease κ β χ}
  {accepted : List (ProgressSubmission κ χ)}

theorem Aligned.split (ha : Aligned c h) :
    ∃ t, before c h = cut h ++ t ∧ ∀ e ∈ t, e.Quiet := by
  obtain ⟨⟨t, ht⟩, hq⟩ := ha
  refine ⟨t, ht.symm, fun e he => hq e ?_⟩
  rw [← ht, List.drop_left]
  exact he

theorem Aligned.totals (ha : Aligned c h) : totalsOf (before c h) = totalsOf (cut h) := by
  obtain ⟨t, ht, hq⟩ := ha.split
  rw [ht, totalsOf_append, totalsOf_quiet hq, add_zero]

theorem Aligned.counts (ha : Aligned c h) : countsOf (before c h) = countsOf (cut h) := by
  obtain ⟨t, ht, hq⟩ := ha.split
  rw [ht, countsOf_append, countsOf_quiet hq, add_zero]

theorem Aligned.candidates (ha : Aligned c h) :
    candidatesOf (before c h) = candidatesOf (cut h) := by
  obtain ⟨t, ht, hq⟩ := ha.split
  rw [ht, candidatesOf_append, candidatesOf_quiet hq, List.append_nil]

/-- What the accepted batches of an attempt describe: the events before the checkpoint
shipped last, no more and no less. -/
structure Describes (lease : Lease κ β χ) (h : Events κ β χ ρ)
    (accepted : List (ProgressSubmission κ χ)) : Prop where
  findings : accepted.flatMap ProgressSubmission.findings = lease.kept (candidatesOf h)
  totals : (accepted.map ProgressSubmission.totals).sum = totalsOf h
  counts : (accepted.map ProgressSubmission.counts).sum = reportedCounts lease h

theorem Accounted.exact (ha : Accounted Aligned lease h accepted)
    {body : ProgressSubmission κ χ} (hlast : accepted.getLast? = some body) :
    ConnectorEvent.checkpointAt body.checkpoint ∈ h ∧
      Describes lease (before body.checkpoint h) accepted := by
  obtain ⟨h₀, log, sent, hl, hp, rfl⟩ := ha
  rw [List.getLast?_map] at hlast
  obtain ⟨batch, hbatch, rfl⟩ := Option.map_eq_some_iff.1 hlast
  obtain ⟨sent', hc⟩ := hl.composed_last hbatch
  have hal : Aligned batch.checkpoint h₀ := hc.condition
  rw [hc.checkpoint, before_eq_of_prefix hc.published hp]
  refine ⟨hp.subset hc.published, ⟨?_, ?_, ?_⟩⟩
  · rw [hl.kept, hal.candidates, candidatesOf_cut]
  · rw [List.map_map, hal.totals]
    exact hl.totals
  · rw [List.map_map, reportedCounts, hal.counts, hal.candidates]
    exact hl.counts

end Aligned

/-- The steps of a run over one source: leases hand the stored checkpoint on, and the
connector yields what follows it, or everything when there is none. -/
def World.ResumesExactly [DecidableEq χ] (S : Events κ β χ ρ) (w : World κ β χ ρ) :
    Action κ β χ ρ → Prop
  | .lease _ _ => w.api.db.task.checkpoint.isSome →
      checkpointStillValid w.api.db.task w.api.db.scan
  | .connector e _ => ∀ r ∈ w.runner,
      r.history ++ [e] <+: rest ConnectorEvent.published r.lease.checkpoint S
  | _ => True

instance [DecidableEq κ] [DecidableEq β] [DecidableEq χ] [DecidableEq ρ] (S : Events κ β χ ρ)
    (w : World κ β χ ρ) (a : Action κ β χ ρ) : Decidable (w.ResumesExactly S a) :=
  match a with
  | .lease _ _ => inferInstanceAs (Decidable (_ → _))
  | .connector e _ => inferInstanceAs (Decidable (∀ r ∈ w.runner,
      r.history ++ [e] <+: rest ConnectorEvent.published r.lease.checkpoint S))
  | .finish _ _ | .die | .renew | .reclaim | .cancel | .otherReport _ _
  | .strayProgress _ _ | .strayResults _ _ => .isTrue trivial

def position (bodies : List (ProgressSubmission κ χ)) : Option χ :=
  bodies.getLast?.map ProgressSubmission.checkpoint

theorem position_append_singleton (bodies : List (ProgressSubmission κ χ))
    (body : ProgressSubmission κ χ) : position (bodies ++ [body]) = some body.checkpoint := by
  rw [position, List.getLast?_concat]
  rfl

/-- The batches account for the source up to their position, each event once. -/
structure Covers [DecidableEq χ] (S : Events κ β χ ρ) (bodies : List (ProgressSubmission κ χ)) :
    Prop where
  totals : (bodies.map ProgressSubmission.totals).sum =
    totalsOf (through ConnectorEvent.published (position bodies) S)
  counts : ∀ k, k ≠ .prefiltered → (bodies.map ProgressSubmission.counts).sum k =
    countsOf (through ConnectorEvent.published (position bodies) S) k

section Covers
variable [DecidableEq χ] {S h : Events κ β χ ρ} {lease : Lease κ β χ}
  {bodies accepted : List (ProgressSubmission κ χ)}

theorem totals_through {c : χ} (hc : ConnectorEvent.checkpointAt c ∈ h) :
    totalsOf (through ConnectorEvent.published (some c) h) = totalsOf (before c h) ∧
      countsOf (through ConnectorEvent.published (some c) h) = countsOf (before c h) := by
  obtain ⟨e, he, ht⟩ := (occurs_published hc).through_eq
  have hq : e.Quiet := by
    cases e <;> first | rfl | cases he
  have hweight : e.weight = 0 := ConnectorEvent.Quiet.weight hq
  have htally : e.tally = 0 := ConnectorEvent.Quiet.tally hq
  rw [ht, totalsOf_append, totalsOf_singleton, countsOf_append, countsOf_singleton, hweight,
    htally, add_zero, add_zero]
  exact ⟨rfl, rfl⟩

/-- The next attempt's batches continue where the ones before it stopped. -/
theorem Covers.extend (hcov : Covers S bodies) (hS : (S.filterMap ConnectorEvent.published).Nodup)
    (hp : h <+: rest ConnectorEvent.published (position bodies) S)
    (ha : Accounted Aligned lease h accepted) : Covers S (bodies ++ accepted) := by
  induction accepted using List.reverseRecOn with
  | nil => rwa [List.append_nil]
  | append_singleton front last _ =>
      obtain ⟨hmem, hd⟩ := ha.exact List.getLast?_concat
      obtain ⟨htotals, hcounts⟩ := totals_through hmem
      have hthrough := through_of_resumed hS hp (occurs_published hmem)
      have hpos : position (bodies ++ (front ++ [last])) = some last.checkpoint := by
        rw [← List.append_assoc, position_append_singleton]
      refine ⟨?_, ?_⟩
      · rw [hpos, hthrough, totalsOf_append, List.map_append, List.sum_append, hd.totals,
          hcov.totals, htotals]
      · intro k hk
        have hrep : reportedCounts lease (before last.checkpoint h) k =
            countsOf (before last.checkpoint h) k := by
          simp only [reportedCounts, Pi.add_apply, Pi.single_eq_of_ne hk, add_zero]
        rw [hpos, hthrough, countsOf_append, List.map_append, List.sum_append, Pi.add_apply,
          Pi.add_apply, hd.counts, hcov.counts k hk, hcounts, hrep]

end Covers

structure World.Chained [DecidableEq χ] (S : Events κ β χ ρ) (w : World κ β χ ρ) : Prop where
  position : w.api.db.task.checkpoint = position w.api.batches
  past : Covers S (w.past.flatMap AttemptLog.accepted)
  runner : ∀ r ∈ w.runner,
    r.lease.checkpoint = IcebergSST.position (w.past.flatMap AttemptLog.accepted) ∧
      r.history <+: rest ConnectorEvent.published r.lease.checkpoint S

namespace World
variable [DecidableEq χ] {S : Events κ β χ ρ} {w w' : World κ β χ ρ}

theorem chained_start (S : Events κ β χ ρ) (scan : Scan) (id : ℕ) :
    (start scan id : World κ β χ ρ).Chained S where
  position := rfl
  past := ⟨rfl, fun _ _ => rfl⟩
  runner := by
    intro _ hnone
    cases hnone

theorem Chained.ended (hc : w.Chained S) (hs : w.Sound Aligned)
    (hS : (S.filterMap ConnectorEvent.published).Nodup) {r : Runner κ β χ ρ}
    (hr : w.runner = some r) {api : ApiState κ χ ρ} (hbatches : api.batches = w.api.batches)
    (hcheckpoint : api.db.task.checkpoint = w.api.db.task.checkpoint) :
    (w.ended r api).Chained S where
  position := by
    change api.db.task.checkpoint = IcebergSST.position api.batches
    rw [hcheckpoint, hbatches]
    exact hc.position
  past := by
    obtain ⟨hpos, hp⟩ := hc.runner r hr
    have hacc := (hs.runner r hr).accounted
    change Covers S ((w.past ++ [r.log api]).flatMap AttemptLog.accepted)
    rw [List.flatMap_append, List.flatMap_singleton]
    have hlog : (r.log api).accepted = r.accepted w.api := by
      change api.batches.drop r.base = _
      rw [hbatches]
      rfl
    rw [hlog]
    exact hc.past.extend hS (hpos ▸ hp) hacc
  runner := by
    intro _ hnone
    cases hnone

theorem Chained.step (hc : w.Chained S) (hs : w.Sound Aligned)
    (hS : (S.filterMap ConnectorEvent.published).Nodup) {a : Action κ β χ ρ}
    (hG : w.Permits Aligned a) (ha : w.ResumesExactly S a) (hstep : w.step a = some w') :
    w'.Chained S := by
  rcases step_cases hstep with ⟨g, now, db, lease, rfl, hr, hlease, rfl⟩ |
    ⟨e, t, r, rfl, hr, hexit, rfl⟩ | ⟨exit, fates, r, rfl, hr, rfl⟩ | ⟨r, rfl, hr, rfl⟩ |
    ⟨rfl, rfl⟩ | ⟨rfl, rfl⟩ | ⟨rfl, rfl⟩ | ⟨counts, version, rfl, rfl⟩ | ⟨_, rfl⟩
  · -- the resume point survives the lease
    obtain ⟨_, rfl, _, hcheckpoint, _⟩ := leaseTask_eq_some hlease
    have hkept : leasedDb { w.api.db with
        task := { w.api.db.task with
          status := .leased
          engineId := some g.engine
          attempts := w.api.db.task.attempts + 1 } } =
        { w.api.db with
          task := { w.api.db.task with
            status := .leased
            engineId := some g.engine
            attempts := w.api.db.task.attempts + 1 } } := by
      unfold leasedDb
      rw [if_neg]
      rintro ⟨hsome, hinvalid⟩
      exact hinvalid (ha hsome)
    rw [hkept] at hcheckpoint ⊢
    have hpast : w.past.flatMap AttemptLog.accepted = w.api.batches := by
      rw [← attempts_of_none hr]
      exact hs.accepted
    refine ⟨hc.position, hc.past, ?_⟩
    intro r hr'
    obtain rfl := Option.some.inj hr'
    refine ⟨?_, List.nil_prefix⟩
    change lease.checkpoint = IcebergSST.position (w.past.flatMap AttemptLog.accepted)
    rw [hcheckpoint, hpast]
    exact hc.position
  · -- the loop advances by what the connector yields next
    obtain ⟨hpos, hp⟩ := hc.runner r hr
    have hP : ∀ (body : ProgressSubmission κ χ) (s : ApiState κ χ ρ), body.Fetched →
        s.db.task.checkpoint = IcebergSST.position s.batches →
        (s.submitProgress r.lease.engine body).1.db.task.checkpoint =
          IcebergSST.position (s.submitProgress r.lease.engine body).1.batches := by
      intro body s _ hs'
      rcases submitProgress_cases s r.lease.engine body with ⟨heq, _⟩ | ⟨ht, _⟩
      · rw [heq]
        exact hs'
      · obtain ⟨coverage, _, htask⟩ := ht.task
        rw [ht.batches, position_append_singleton, htask]
    refine ⟨(hs.runner r hr).step_preserves hP (hG r hr) hc.position, hc.past, ?_⟩
    intro r' hr'
    obtain rfl := Option.some.inj hr'
    refine ⟨hpos, ?_⟩
    change (if (r.fetch.step r.lease e t w.api).1.exit = none then r.history ++ [e]
      else r.history) <+: _
    split_ifs
    · exact ha r hr
    · exact hp
  · rcases r.fetch.finish_cases r.lease exit fates with heq | ⟨body, _, ht⟩
    · exact hc.ended hs hS hr (by rw [heq]) (by rw [heq])
    · obtain ⟨delta, merged, _, _, htask⟩ := ht.task
      exact hc.ended hs hS hr ht.batches (by rw [htask]; rfl)
  · exact hc.ended hs hS hr rfl rfl
  · refine ⟨Eq.trans ?_ hc.position, hc.past, hc.runner⟩
    change (renewLease w.api.db).task.checkpoint = _
    unfold renewLease
    split_ifs <;> rfl
  · refine ⟨Eq.trans ?_ hc.position, hc.past, hc.runner⟩
    change (reclaimExpiredLease w.api.db).task.checkpoint = _
    unfold reclaimExpiredLease
    split_ifs <;> rfl
  · refine ⟨Eq.trans ?_ hc.position, hc.past, hc.runner⟩
    change (cancelTask w.api.db).task.checkpoint = _
    unfold cancelTask
    split_ifs <;> rfl
  · exact ⟨hc.position, hc.past, hc.runner⟩
  · exact hc

end World

theorem Fetch.report_exhausted {lease : Lease κ β χ} {f : Fetch κ β χ ρ}
    {body : ResultsSubmission κ ρ} (h : f.report lease .exhausted = some body) :
    body.coverage = some (match f.batcher with
      | none => f.outcome.coverage.asPayload
      | some b => coverageDelta f.outcome.coverage.asPayload b.sentCoverage) ∧
    ∀ k, k ≠ .prefiltered →
      body.counts k = f.counts k - f.batcher.elim 0 Batcher.sentCounts k := by
  unfold Fetch.report at h
  rw [if_neg (by simp)] at h
  rw [← Option.some.inj h]
  refine ⟨rfl, fun k hk => ?_⟩
  cases k <;> first | rfl | exact absurd rfl hk

section Report
variable {G : χ → Events κ β χ ρ → Prop} {r : Runner κ β χ ρ} {api api' : ApiState κ χ ρ}

/-- With the batches accepted before it, the report accounts for the whole history. -/
theorem Runner.Sound.report_totals (hs : r.Sound G api) (hexit : r.fetch.exit = none)
    {body : ResultsSubmission κ ρ} (hbody : r.fetch.report r.lease .exhausted = some body)
    (ht : ResultsTaken api api' r.lease.engine body) :
    ((r.accepted api).map ProgressSubmission.totals).sum + body.totals = totalsOf r.history ∧
    ∀ k, k ≠ .prefiltered →
      ((r.accepted api).map ProgressSubmission.counts).sum k + body.counts k =
        countsOf r.history k := by
  obtain ⟨hcov, hcounts⟩ := Fetch.report_exhausted hbody
  obtain ⟨hseq, _⟩ := Fetch.report_checkpointSequence hbody
  rw [ht.sequence] at hseq
  have htrace := totals_of_coverageOf hs.traces.coverage
  have htally := hs.traces.counts hexit
  cases hb : r.fetch.batcher with
  | none =>
      rw [hb] at hcov hcounts
      rw [hs.idle hb, ResultsSubmission.totals, hcov]
      refine ⟨(zero_add _).trans htrace, fun k hk => ?_⟩
      rw [hcounts k hk, htally]
      change 0 + (countsOf r.history k - 0) = _
      rw [zero_add, sub_zero]
  | some b =>
      rw [hb] at hcov hcounts hseq
      obtain ⟨_, hsound⟩ := hs.delivery b hb
      rw [show api.db.task.checkpointSequence = b.sequence from hseq] at hsound
      obtain ⟨h₀, log, hl, hp, hlog⟩ := hsound.sent_of_sequence
      have hnow : Boundary.Describes r.lease r.history
          ⟨(candidatesOf r.history).length, r.fetch.outcome.coverage.asPayload,
            countsOf r.history⟩ := ⟨rfl, ⟨_, hs.traces.coverage, rfl⟩, rfl⟩
      have hext := hnow.extends hl.describes ((cut_initial h₀).trans hp)
      have hsent : b.sentCoverage.totals = totalsOf (cut h₀) := hl.describes.totals
      have hsentCounts : b.sentCounts = countsOf (cut h₀) := hl.describes.counts
      have htotals : body.totals = totalsOf r.history - totalsOf (cut h₀) := by
        rw [ResultsSubmission.totals, hcov, Option.elim_some, ← htrace, ← hsent]
        exact totals_coverageDelta hext
      rw [Runner.accepted, ← hlog, List.map_map, List.map_map]
      constructor
      · rw [htotals]
        rw [show (log.map (ProgressSubmission.totals ∘ Batch.payload)).sum = totalsOf (cut h₀)
          from hl.totals]
        abel
      · intro k hk
        rw [show (log.map (ProgressSubmission.counts ∘ Batch.payload)).sum =
          reportedCounts r.lease (cut h₀) from hl.counts, hcounts k hk, htally]
        change reportedCounts r.lease (cut h₀) k + (countsOf r.history k - b.sentCounts k) = _
        rw [hsentCounts, reportedCounts, Pi.add_apply, Pi.single_eq_of_ne hk]
        ring

end Report

/-- What the accepted batches of every attempt describe is what lies before the
checkpoint they shipped last. -/
def World.BatchesMatchCheckpoints [DecidableEq χ] (w : World κ β χ ρ) : Prop :=
  ∀ a ∈ w.attempts, ∀ body, a.accepted.getLast? = some body →
    Describes a.lease (before body.checkpoint a.history) a.accepted

/-- The stored coverage and tallies hold every event of the source before the resume
point once, and all of it when the attempt that read to the end is accepted. -/
structure World.CountsOnce [DecidableEq χ] (S : Events κ β χ ρ) (w : World κ β χ ρ) : Prop where
  stored : w.api.db.task.status.Terminal = false →
    storedTotals w.api.db.task.coverage =
        totalsOf (through ConnectorEvent.published w.api.db.task.checkpoint S) ∧
      ∀ k, k ≠ .prefiltered → w.api.db.scan.counts k =
        w.others k + countsOf (through ConnectorEvent.published w.api.db.task.checkpoint S) k
  finished : ∀ r ∈ w.runner, r.fetch.exit = none →
    r.history = rest ConnectorEvent.published r.lease.checkpoint S → ∀ fates,
      r.fetch.finish r.lease .exhausted fates w.api = w.api ∨
        storedTotals (r.fetch.finish r.lease .exhausted fates w.api).db.task.coverage =
            totalsOf S ∧
          ∀ k, k ≠ .prefiltered →
            (r.fetch.finish r.lease .exhausted fates w.api).db.scan.counts k =
              w.others k + countsOf S k

namespace World
variable [DecidableEq χ] {S : Events κ β χ ρ} {w : World κ β χ ρ}

theorem Sound.stored_eq (hs : w.Sound Aligned) (hlive : w.api.db.task.status.Terminal = false) :
    storedTotals w.api.db.task.coverage = (w.api.batches.map ProgressSubmission.totals).sum ∧
      w.api.db.scan.counts =
        w.others + (w.api.batches.map ProgressSubmission.counts).sum := by
  have hresults := hs.api.unreported hlive
  have hcoverage := hs.api.coverage (by
    intro hc
    rw [hc] at hlive
    cases hlive)
  have hcounts := hs.counts
  simp only [ApiState.takenTotals, ApiState.takenCounts, hresults, List.map_nil, List.sum_nil,
    add_zero] at hcoverage hcounts
  exact ⟨hcoverage, hcounts⟩

theorem Chained.covers (hc : w.Chained S) (hs : w.Sound Aligned)
    (hS : (S.filterMap ConnectorEvent.published).Nodup) : Covers S w.api.batches := by
  rw [← hs.accepted]
  cases hr : w.runner with
  | none =>
      rw [attempts_of_none hr]
      exact hc.past
  | some r =>
      obtain ⟨hpos, hp⟩ := hc.runner r hr
      rw [attempts_of_some hr, List.flatMap_append, List.flatMap_singleton]
      exact hc.past.extend hS (hpos ▸ hp) (hs.runner r hr).accounted

theorem Chained.finished (hc : w.Chained S) (hs : w.Sound Aligned) {r : Runner κ β χ ρ}
    (hr : w.runner = some r) (hexit : r.fetch.exit = none)
    (hall : r.history = rest ConnectorEvent.published r.lease.checkpoint S)
    {api : ApiState κ χ ρ} {body : ResultsSubmission κ ρ}
    (hbody : r.fetch.report r.lease .exhausted = some body)
    (ht : ResultsTaken w.api api r.lease.engine body) :
    storedTotals api.db.task.coverage = totalsOf S ∧
      ∀ k, k ≠ .prefiltered → api.db.scan.counts k = w.others k + countsOf S k := by
  have hlive := ScanTaskStatus.not_terminal_of_leased ht.leased
  have hresults := hs.api.unreported hlive
  have hapi := hs.api.resultsTaken ht (Fetch.report_coverage_isSome hbody)
  have htally : api.Tallied w.others := ht.tallied hs.counts
  obtain ⟨htotals, hcounts⟩ := (hs.runner r hr).report_totals hexit hbody ht
  obtain ⟨hpos, _⟩ := hc.runner r hr
  have hsplit : w.api.batches = w.past.flatMap AttemptLog.accepted ++ r.accepted w.api := by
    rw [hs.past_accepted hr]
    exact (List.take_append_drop _ _).symm
  have hS' : S = through ConnectorEvent.published r.lease.checkpoint S ++ r.history := by
    rw [hall, through_append_rest]
  have hstatus : api.db.task.status ≠ .cancelled := by
    obtain ⟨delta, merged, _, _, htask⟩ := ht.task
    rw [htask]
    exact (effectiveOutcome_ne_cancelled _ _ (ApiState.resultsTaken_status ht)).2
  constructor
  · rw [hapi.coverage hstatus, ApiState.takenTotals, ht.batches, ht.results, hresults, hsplit,
      List.map_append, List.sum_append, hc.past.totals, ← hpos]
    conv_rhs => rw [hS', totalsOf_append, ← htotals]
    rw [List.nil_append, List.map_singleton, List.sum_singleton, add_assoc]
  · intro k hk
    rw [show api.db.scan.counts = w.others + api.takenCounts from htally, ApiState.takenCounts,
      ht.batches, ht.results, hresults, hsplit, List.map_append, List.sum_append,
      List.nil_append, List.map_singleton, List.sum_singleton]
    simp only [Pi.add_apply]
    rw [hc.past.counts k hk, ← hpos]
    conv_rhs => rw [hS', countsOf_append, Pi.add_apply, ← hcounts k hk]
    ring

/-- When every batch is composed at an aligned checkpoint, batches describe exactly what
lies before their checkpoint; and over a source whose checkpoints are distinct, read by
a connector that resumes exactly, every object counts once. -/
theorem objects_count_once :
    (∀ w : World κ β χ ρ, Reachable (Permits Aligned) w → w.BatchesMatchCheckpoints) ∧
    ∀ S : Events κ β χ ρ, (S.filterMap ConnectorEvent.published).Nodup →
      ∀ w : World κ β χ ρ, Reachable (fun w a => w.Permits Aligned a ∧ w.ResumesExactly S a) w →
        w.CountsOnce S := by
  constructor
  · intro w hw a ha body hlast
    have hs : w.Sound Aligned := hw.sound (fun _ _ h => h)
    exact ((hs.attempt_accounted ha).exact hlast).2
  · intro S hS w hw
    have hs : w.Sound Aligned := hw.sound (fun _ _ h => h.1)
    have hc : w.Chained S := by
      induction hw with
      | start scan id => exact chained_start S scan id
      | step hw ha hstep ih =>
          have hs := hw.sound (fun _ _ h => h.1)
          exact (ih hs).step hs hS ha.1 ha.2 hstep
    refine ⟨fun hlive => ?_, fun r hr hexit hall fates => ?_⟩
    · obtain ⟨hcoverage, hcounts⟩ := hs.stored_eq hlive
      have hcov := hc.covers hs hS
      rw [hc.position, hcoverage, hcounts]
      exact ⟨hcov.totals, fun k hk => by rw [Pi.add_apply, hcov.counts k hk]⟩
    · rcases r.fetch.finish_cases r.lease .exhausted fates with
        heq | ⟨body, hbody, ht⟩
      · exact Or.inl heq
      · rw [hexit] at hbody
        exact Or.inr (hc.finished hs hr hexit hall hbody ht)

end World

/-! Two pages of one unit each, and the same pages with an attachment on the second. -/

def plainSource : Events ℕ Unit ℕ Unit :=
  [.scannedFor, sampleUnit [3], .checkpointAt 1, .scannedFor, sampleUnit [4], .checkpointAt 2]

def readToTheEnd : List (Action ℕ Unit ℕ Unit) :=
  [.lease sampleGrant 0, .connector .scannedFor {}, .connector (sampleUnit [3]) {},
    .connector (.checkpointAt 1) {}, .connector .scannedFor {},
    .connector (sampleUnit [4]) (lateTick [.answered]), .die, .reclaim,
    .lease { sampleGrant with engine := 2 } 40, .connector .scannedFor {},
    .connector (sampleUnit [4]) {}, .connector (.checkpointAt 2) {}]

theorem World.objects_count_once_after_crash :
    ∃ w : World ℕ Unit ℕ Unit,
      (start {} 0).run (fun w a => w.Permits Aligned a ∧ w.ResumesExactly plainSource a)
        readToTheEnd = some w ∧ w.BatchesMatchCheckpoints ∧ w.CountsOnce plainSource := by
  have hrun : ((start {} 0 : World ℕ Unit ℕ Unit).run
      (fun w a => w.Permits Aligned a ∧ w.ResumesExactly plainSource a) readToTheEnd).isSome := by
    decide +kernel
  obtain ⟨w, hw⟩ := Option.isSome_iff_exists.1 hrun
  have hreach : Reachable (fun w a => w.Permits Aligned a ∧ w.ResumesExactly plainSource a) w :=
    (Reachable.start {} 0).run hw
  have hpermits : Reachable (Permits Aligned) w := by
    clear hw
    induction hreach with
    | start scan id => exact .start scan id
    | step _ ha hstep ih => exact ih.step ha.1 hstep
  exact ⟨w, hw, objects_count_once.1 w hpermits,
    objects_count_once.2 plainSource (by decide) w hreach⟩

def attachedSource : Events ℕ Unit ℕ Unit :=
  [.scannedFor, sampleUnit [3], .checkpointAt 1, .scannedFor, sampleUnit [4], .scannedFor,
    sampleUnit [5], .checkpointAt 2]

/-- The interval passes in the middle of the second page: its first unit is shipped with
the position behind the first page. -/
def flushMidPage : List (Action ℕ Unit ℕ Unit) :=
  [.lease sampleGrant 0, .connector .scannedFor {}, .connector (sampleUnit [3]) {},
    .connector (.checkpointAt 1) {}, .connector .scannedFor {}, .connector (sampleUnit [4]) {},
    .connector .scannedFor {}, .connector (sampleUnit [5]) (lateTick [.answered]), .die, .reclaim,
    .lease { sampleGrant with engine := 2 } 40, .connector .scannedFor {},
    .connector (sampleUnit [4]) {}, .connector .scannedFor {}, .connector (sampleUnit [5]) {},
    .connector (.checkpointAt 2) {}]

def countsTwice (w : World ℕ Unit ℕ Unit) : Bool :=
  w.runner.any fun r =>
    let api := r.fetch.finish r.lease .exhausted [.answered] w.api
    r.fetch.exit = none ∧
      r.history = rest ConnectorEvent.published r.lease.checkpoint attachedSource ∧
      api.results.length ≠ w.api.results.length ∧
      storedTotals api.db.task.coverage .scanned ≠ totalsOf attachedSource .scanned

theorem World.objects_can_count_twice :
    ∃ w : World ℕ Unit ℕ Unit, (attachedSource.filterMap ConnectorEvent.published).Nodup ∧
      Reachable (fun w a => w.ResumesExactly attachedSource a) w ∧
      ¬ w.CountsOnce attachedSource := by
  have hrun : ((start {} 0 : World ℕ Unit ℕ Unit).run
      (fun w a => w.ResumesExactly attachedSource a) flushMidPage).any countsTwice := by
    decide +kernel
  obtain ⟨w, hw, htwice⟩ := (Option.any_eq_true _ _).1 hrun
  refine ⟨w, by decide, (Reachable.start {} 0).run hw, fun honce => ?_⟩
  obtain ⟨r, hr, hcounted⟩ := (Option.any_eq_true _ _).1 htwice
  obtain ⟨hexit, hall, hresults, hscanned⟩ := of_decide_eq_true hcounted
  rcases honce.finished r hr hexit hall [.answered] with heq | ⟨htotals, _⟩
  · exact hresults (by rw [heq])
  · exact hscanned (by rw [htotals])

end IcebergSST
