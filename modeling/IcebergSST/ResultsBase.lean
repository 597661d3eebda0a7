import IcebergSST.StoredBatches

/-!
# What a terminal submission is merged onto

Results are checked against the counter one read returns and merged onto the coverage of
that read, while the update that claims them does not look at the counter again. As long
as no batch is committed in between, the row at the commit is the one the submission was
computed against.
-/

namespace IcebergSST

variable {κ β χ ρ : Type}

namespace Wire

/-- Every batch is stored and counted once, and results are merged onto the coverage of
the batches they were computed with. -/
structure MergesOnBase (w : Wire κ β χ ρ) : Prop extends w.Counted where
  results : ∀ s ∈ w.results, s.sequence = s.body.checkpointSequence ∧
    s.base = coverageAfter w.batches s.body.checkpointSequence

/-- No results are claimed by a request that a batch has overtaken since its checks. -/
def notOvertaken (w : Wire κ β χ ρ) : WireAction κ β χ ρ → Bool
  | .commit k _ =>
      match w.requests[k]? with
      | some { engine, message := .results body, stage := .checked _ true } =>
          (claimResult w.db.task engine body.idempotencyKey).isNone
      | _ => true
  | _ => true

/-- Results that nothing overtook are merged onto the row as it is. -/
theorem Numbered.results_based {w : Wire κ β χ ρ} (hs : w.Numbered) {row : ScanTask χ ρ}
    {q : Request κ χ ρ} {body : ResultsSubmission κ ρ} {db : Db χ ρ}
    (hread : ReadBy row false w.db.task)
    (hbased : body.checkpointSequence = row.checkpointSequence)
    (hst : ResultsStored w.db db q.engine body) :
    w.db.task.checkpointSequence = body.checkpointSequence ∧
      row.coverage = coverageAfter w.batches body.checkpointSequence := by
  have hlive := ScanTaskStatus.not_terminal_of_leased hst.leased
  have hsame := hread.kept rfl
  refine ⟨(hbased.trans hsame).symm, ?_⟩
  rw [hbased, hsame, hs.sequence]
  exact (hread.coverage hsame hlive).trans (hs.coverage hlive)

theorem MergesOnBase.step [DecidableEq χ] {w w' : Wire κ β χ ρ} {a : WireAction κ β χ ρ}
    (hs : w.Numbered) (hb : w.MergesOnBase) (hg : w.notOvertaken a) (h : w.step a = some w') :
    w'.MergesOnBase := by
  refine ⟨(hs.step h).counted, ?_⟩
  rcases step_stored h with
    ⟨hbatches, hresults⟩ | ⟨k, q, row, overtaken, outcome, rfl, hq, hstage, rfl⟩
  · rw [hbatches, hresults]
    exact hb.results
  · obtain ⟨hread, hbased⟩ := (hs.requests q (List.mem_of_getElem? hq)).checked row overtaken hstage
    rcases w.commit_cases k q row outcome with ⟨i, body, db, hm, hst, heq⟩ |
      ⟨body, db, hm, hst, heq⟩ | ⟨answer, heq, _⟩
    · -- the task is not yet reported on
      rw [heq]
      intro s hmem
      change s ∈ w.results at hmem
      rw [hs.unreported hst.unreported] at hmem
      cases hmem
    · rw [hm] at hbased
      have hkept : overtaken = false := by
        by_contra hover
        obtain rfl : overtaken = true := by simpa using hover
        have hnone : (claimResult w.db.task q.engine body.idempotencyKey).isNone := by
          obtain ⟨engine, message, stage⟩ := q
          cases hm
          cases hstage
          simpa only [notOvertaken, hq] using hg
        rw [Option.isNone_iff_eq_none] at hnone
        have hsome := hst.claimed
        rw [hnone] at hsome
        cases hsome
      subst hkept
      obtain ⟨hseq, hcov⟩ := hs.results_based hread hbased.1 hst
      rw [heq]
      intro s hmem
      change s ∈ w.results ++ [_] at hmem
      rw [hs.unreported hst.unreported] at hmem
      obtain rfl := List.mem_singleton.1 hmem
      exact ⟨hseq, hcov⟩
    · rw [heq]
      exact hb.results

/-- In every run in which no results are claimed that a batch overtook. -/
theorem results_merge_on_their_base [DecidableEq χ] {w : Wire κ β χ ρ}
    (h : Machine.Reachable step (fun w a => w.notOvertaken a) Started w) : w.MergesOnBase := by
  have hinv : w.Numbered ∧ w.MergesOnBase := by
    apply h.invariant
    · rintro w hstart
      obtain ⟨scan, id, kind, rfl⟩ := id hstart
      exact ⟨numbered_of_started hstart, (numbered_of_started hstart).counted,
        fun s hs => (by cases hs)⟩
    · rintro w a w' ⟨hs, hb⟩ hg hstep
      exact ⟨hs.step hstep, hb.step hs hg hstep⟩
  exact hinv.2

def batchThenResults : List (WireAction ℕ Unit ℕ Unit) :=
  firstFlush ++ [.transmit 0, .check 0, .commit 0 0, .receive 0 31, .worker 0 (.report .exhausted),
    .transmit 0, .check 1, .commit 1 0]

theorem results_merge_on_the_batch_before : ∃ w : Wire ℕ Unit ℕ Unit,
    Machine.run step (fun w a => w.notOvertaken a) (start {} 0 .fetch) batchThenResults = some w ∧
      w.results.length = 1 ∧ w.db.task.checkpointSequence = 1 ∧ w.db.scan.counts .units = 2 ∧
      w.MergesOnBase := by
  have hrun : (Machine.run step (fun w a => w.notOvertaken a)
      (start {} 0 .fetch : Wire ℕ Unit ℕ Unit) batchThenResults).any fun w =>
        w.results.length = 1 ∧ w.db.task.checkpointSequence = 1 ∧ w.db.scan.counts .units = 2 := by
    with_unfolding_all decide
  obtain ⟨w, hw, hobs⟩ := (Option.any_eq_true _ _).1 hrun
  obtain ⟨hlen, hseq, hunits⟩ := of_decide_eq_true hobs
  exact ⟨w, hw, hlen, hseq, hunits,
    results_merge_on_their_base ((Machine.Reachable.start ⟨{}, 0, .fetch, rfl⟩).run hw)⟩

/-- The batch waits for the scan lock while the worker gives up on it and reports. The
report passes its checks against the counter zero, and is claimed after the batch. -/
def resultsOvertaken : List (WireAction ℕ Unit ℕ Unit) :=
  firstFlush ++ [.transmit 0, .check 0, .worker 0 (.giveUp 31), .worker 0 (.report .exhausted),
    .transmit 0, .check 1, .commit 0 0, .commit 1 0]

theorem results_can_merge_on_a_stale_base : ∃ w : Wire ℕ Unit ℕ Unit,
    Machine.Reachable step (fun _ _ => True) Started w ∧
      (∃ s ∈ w.results, s.body.checkpointSequence = 0 ∧ s.sequence = 1) ∧
      w.db.scan.counts .units = 3 ∧ ¬ w.MergesOnBase := by
  have hrun : (Machine.run step (fun _ _ => True)
      (start {} 0 .fetch : Wire ℕ Unit ℕ Unit) resultsOvertaken).any fun w =>
        w.results.any (fun s => s.body.checkpointSequence = 0 ∧ s.sequence = 1) ∧
          w.db.scan.counts .units = 3 := by
    with_unfolding_all decide
  have hstart : Machine.Reachable step (fun _ _ => True) Started
      (start {} 0 .fetch : Wire ℕ Unit ℕ Unit) := .start ⟨{}, 0, .fetch, rfl⟩
  obtain ⟨w, hw, hany, hunits⟩ := hstart.exists_of_run hrun
  obtain ⟨s, hs, hstale⟩ := List.any_eq_true.1 hany
  obtain ⟨hbody, hseq⟩ := of_decide_eq_true hstale
  refine ⟨w, hw, ⟨s, hs, hbody, hseq⟩, hunits, fun hm => ?_⟩
  have hbase := (hm.results s hs).1
  omega

end Wire

end IcebergSST
