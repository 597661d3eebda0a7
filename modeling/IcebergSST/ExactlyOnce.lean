import IcebergSST.Lifecycle

/-!
# Findings are reported exactly once

An attempt's candidates reach the API through its batches and its results, over a
network that loses requests and answers. Whatever is lost, the accepted batches carry
a prefix of the candidates that were not pre-filtered, a stored checkpoint has all of
the candidates before it in that prefix, and results are only accepted with the rest.
-/

namespace IcebergSST

variable {κ β χ ρ : Type}

def Lease.kept (lease : Lease κ β χ) (candidates : List κ) : List κ :=
  candidates.filter (fun c => !lease.suppresses c)

def AttemptLog.findings (a : AttemptLog κ β χ ρ) : List κ :=
  a.accepted.flatMap ProgressSubmission.findings

section Accounted
variable {G : χ → Events κ β χ ρ → Prop} {lease : Lease κ β χ} {h : Events κ β χ ρ}
  {accepted : List (ProgressSubmission κ χ)}

theorem Ledger.kept {bs : List (Batch κ χ)} {sent : Boundary} (hl : Ledger G lease h bs sent) :
    (bs.map Batch.payload).flatMap ProgressSubmission.findings = lease.kept (candidatesOf h) := by
  rw [List.flatMap_map, hl.findings]
  rfl

theorem Lease.kept_initial {h' : Events κ β χ ρ} (hp : h' <+: h) :
    lease.kept (candidatesOf h') <+: lease.kept (candidatesOf h) := by
  obtain ⟨t, rfl⟩ := hp
  rw [Lease.kept, Lease.kept, candidatesOf_append, List.filter_append]
  exact List.prefix_append _ _

theorem Accounted.findings_initial (ha : Accounted G lease h accepted) :
    accepted.flatMap ProgressSubmission.findings <+: lease.kept (candidatesOf h) := by
  obtain ⟨h₀, log, sent, hl, hp, rfl⟩ := ha
  rw [hl.kept]
  exact Lease.kept_initial hp

/-- A stored checkpoint has the candidates before it stored with it. -/
theorem Accounted.before_initial [DecidableEq χ] (ha : Accounted G lease h accepted)
    {body : ProgressSubmission κ χ} (hb : body ∈ accepted) :
    lease.kept (candidatesOf (before body.checkpoint h)) <+:
      accepted.flatMap ProgressSubmission.findings := by
  obtain ⟨h₀, log, sent, hl, hp, rfl⟩ := ha
  obtain ⟨batch, hbatch, rfl⟩ := List.mem_map.1 hb
  obtain ⟨sent', h₁, hp₁, hc⟩ := hl.composed hbatch
  have hbefore : before batch.payload.checkpoint h = before batch.checkpoint h₁ := by
    rw [hc.checkpoint]
    exact before_eq_of_prefix hc.published (hp₁.trans hp)
  rw [hl.kept, hbefore]
  exact Lease.kept_initial (before_initial.trans hp₁)

end Accounted

/-- When the API takes the report, the batches it holds are the ones the engine left
out of the report. -/
theorem Runner.Sound.report {G : χ → Events κ β χ ρ → Prop} {r : Runner κ β χ ρ}
    {api api' : ApiState κ χ ρ} (hs : r.Sound G api) {exit : Exit} {body : ResultsSubmission κ ρ}
    (hbody : r.fetch.report r.lease exit = some body)
    (ht : ResultsTaken api api' r.lease.engine body) :
    (r.accepted api).flatMap ProgressSubmission.findings ++ body.findings =
      r.lease.kept r.fetch.candidates := by
  obtain ⟨hseq, hfindings⟩ := Fetch.report_checkpointSequence hbody
  rw [ht.sequence] at hseq
  cases hb : r.fetch.batcher with
  | none =>
      rw [hs.idle hb, hfindings, Fetch.sentCandidates, hb]
      rfl
  | some b =>
      rw [hb] at hseq
      obtain ⟨_, hsound⟩ := hs.delivery b hb
      rw [show api.db.task.checkpointSequence = b.sequence from hseq] at hsound
      obtain ⟨h₀, log, hl, ⟨t, ht⟩, hlog⟩ := hsound.sent_of_sequence
      have hsent : b.sentCandidates = (candidatesOf h₀).length := hl.candidates_le
      have hdrop : r.fetch.candidates.drop b.sentCandidates = candidatesOf t := by
        rw [hs.traces.candidates, ← ht, candidatesOf_append, hsent, List.drop_left]
      rw [Runner.accepted, ← hlog, hl.kept, hfindings, Fetch.sentCandidates, hb]
      change r.lease.kept _ ++ List.filter _ (r.fetch.candidates.drop b.sentCandidates) = _
      rw [hdrop, hs.traces.candidates, ← ht, candidatesOf_append, Lease.kept, Lease.kept,
        List.filter_append]

/-- Exactly-once reporting, of every attempt so far and of the report that may end the
one in progress. -/
structure World.ReportsExactlyOnce [DecidableEq χ] (w : World κ β χ ρ) : Prop where
  /-- No batch repeats or skips a candidate. -/
  batches : ∀ a ∈ w.attempts, a.findings <+: a.lease.kept (candidatesOf a.history)
  /-- What lies before a stored checkpoint is stored. -/
  stored : ∀ a ∈ w.attempts, ∀ body ∈ a.accepted,
    a.lease.kept (candidatesOf (before body.checkpoint a.history)) <+: a.findings
  /-- The report is taken at most once, and only with the candidates that are left. -/
  report : ∀ r ∈ w.runner, r.fetch.candidates = candidatesOf r.history ∧
    ∀ exit fates, r.fetch.finish r.lease exit fates w.api = w.api ∨
      ∃ body, (r.fetch.finish r.lease exit fates w.api).batches = w.api.batches ∧
        (r.fetch.finish r.lease exit fates w.api).results = w.api.results ++ [body] ∧
        (r.log w.api).findings ++ body.findings = r.lease.kept r.fetch.candidates

theorem World.Sound.attempt_accounted {G : χ → Events κ β χ ρ → Prop} {w : World κ β χ ρ}
    (hs : w.Sound G) {a : AttemptLog κ β χ ρ} (ha : a ∈ w.attempts) :
    Accounted G a.lease a.history a.accepted := by
  rcases List.mem_append.1 ha with ha | ha
  · exact hs.past a ha
  · obtain ⟨r, hr, rfl⟩ := Option.map_eq_some_iff.1 (Option.mem_toList.1 ha)
    exact (hs.runner r hr).accounted

/-- Whatever the connector yields, the clock shows, the network loses and the API
refuses, findings are reported exactly once. -/
theorem World.reports_exactly_once [DecidableEq χ] {w : World κ β χ ρ}
    (hw : Reachable (fun _ _ => True) w) : w.ReportsExactlyOnce := by
  have hs : w.Sound (fun _ _ => True) := by
    apply hw.sound
    intro w a _
    cases a <;> first | trivial | exact fun _ _ _ _ _ _ => trivial
  refine ⟨fun a ha => (hs.attempt_accounted ha).findings_initial,
    fun a ha body hb => (hs.attempt_accounted ha).before_initial hb, fun r hr => ?_⟩
  have hrun := hs.runner r hr
  refine ⟨hrun.traces.candidates, fun exit fates => ?_⟩
  rcases r.fetch.finish_cases r.lease exit fates with heq | ⟨body, hb, ht⟩
  · exact Or.inl heq
  · exact Or.inr ⟨body, ht.batches, ht.results, hrun.report hb ht⟩

/-! A small run of the machine, with an engine whose lease suppresses the candidate 7. -/

def blankReference : GapReference := ⟨_, zeros_wellFormed⟩

def sampleGrant : Grant ℕ Unit where
  engine := 1
  rulepackVersion := "1"
  referenceKey := fun _ _ => blankReference
  suppresses := fun c => c = 7
  taskReference := ()
  checkpoints := true

def sampleUnit (candidates : List ℕ) : ConnectorEvent ℕ Unit ℕ Unit :=
  .yield { candidates, kind := .path, locator := () }

def lateTick (fates : List Fate) : Tick := { now := 31, fates, rearmed := 31 }

/-- The batch's first answer is lost, and its redelivery is answered as a replay. -/
def lostAnswer : List (Action ℕ Unit ℕ Unit) :=
  [.lease sampleGrant 0, .connector .scannedFor {}, .connector (sampleUnit [3, 7]) {},
    .connector (.checkpointAt 1) {}, .connector .scannedFor {},
    .connector (sampleUnit [4]) (lateTick [.responseLost, .answered])]

theorem World.reports_exactly_once_after_lost_answer :
    ∃ w : World ℕ Unit ℕ Unit, (start {} 0).run (fun _ _ => True) lostAnswer = some w ∧
      w.api.batches.map ProgressSubmission.findings = [[3]] ∧ w.ReportsExactlyOnce := by
  have hrun : ((start {} 0 : World ℕ Unit ℕ Unit).run (fun _ _ => True) lostAnswer).any
      (fun w => w.api.batches.map ProgressSubmission.findings = [[3]]) := by decide +kernel
  obtain ⟨w, hw, hbatches⟩ := (Option.any_eq_true _ _).1 hrun
  exact ⟨w, hw, by simpa using hbatches, reports_exactly_once ((Reachable.start {} 0).run hw)⟩

end IcebergSST
