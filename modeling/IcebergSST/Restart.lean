import IcebergSST.ExactResume
import IcebergSST.Manifest

/-!
# Starting over after a discarded resume point

A resume point taken under another configuration is dropped when its task is leased
again, and the attempt reads its spec from the top. The counter and the coverage of the
batches before it stay, so the report of the new attempt is added to what the earlier
ones had accepted. The task counts the spec once exactly when that was nothing.
-/

namespace IcebergSST

open Bookmark

variable {κ β χ ρ : Type}

/-- A resume point that is not licensed any more is not handed out, and the sequence is. -/
theorem leaseTask_discards {db db' : Db χ ρ} {g : Grant κ β} {lease : Lease κ β χ}
    (h : leaseTask db g = some (db', lease)) (hpoint : db.task.checkpoint.isSome)
    (hmoved : ¬ checkpointStillValid db.task db.scan) :
    lease.checkpoint = none ∧ lease.checkpointSequence = db.task.checkpointSequence ∧
      db'.task.coverage = db.task.coverage := by
  obtain ⟨_, rfl, _, hcheckpoint, hsequence⟩ := leaseTask_eq_some h
  rw [hcheckpoint, hsequence]
  unfold leasedDb
  rw [if_pos ⟨hpoint, hmoved⟩]
  exact ⟨rfl, rfl, rfl⟩

theorem ApiState.submitProgress_valid {api : ApiState κ χ ρ} (h : ∀ b ∈ api.batches, b.Valid)
    (engine : EngineId) (body : ProgressSubmission κ χ) :
    ∀ b ∈ (api.submitProgress engine body).1.batches, b.Valid := by
  by_cases hvalid : body.Valid
  · rcases submitProgress_cases api engine body with ⟨heq, _⟩ | ⟨ht, _⟩
    · rw [heq]
      exact h
    · intro b hb
      rw [ht.batches] at hb
      rcases List.mem_append.1 hb with hb | hb
      · exact h b hb
      · rwa [List.mem_singleton.1 hb]
  · have hrefused : IcebergSST.submitProgress api.db engine body =
        (api.db, .error .unprocessable) := dif_neg hvalid
    intro b hb
    rw [ApiState.submitProgress, hrefused] at hb
    exact h b hb

theorem ProgressSubmission.Valid.totals_nonneg {body : ProgressSubmission κ χ} (h : body.Valid) :
    0 ≤ body.totals := by
  unfold ProgressSubmission.totals
  cases hc : body.coverage with
  | none => exact le_rfl
  | some p => exact TaskCoverageReport.totals_nonneg ⟨p, h.coverage p hc⟩

theorem sum_counts_apply (bodies : List (ProgressSubmission κ χ)) (k : CountKey) :
    (bodies.map ProgressSubmission.counts).sum k = (bodies.map (fun b => b.counts k)).sum := by
  induction bodies with
  | nil => rfl
  | cons b bodies ih => rw [List.map_cons, List.sum_cons, Pi.add_apply, ih, List.map_cons,
      List.sum_cons]

namespace World
variable [DecidableEq χ] {w w' : World κ β χ ρ}

theorem Sound.batches_valid {G : χ → Events κ β χ ρ → Prop} (hs : w.Sound G)
    (hvalid : ∀ b ∈ w.api.batches, b.Valid) {a : Action κ β χ ρ} (hG : w.Permits G a)
    (hstep : w.step a = some w') : ∀ b ∈ w'.api.batches, b.Valid := by
  rcases step_cases hstep with ⟨g, now, db, lease, rfl, hr, hlease, rfl⟩ |
    ⟨e, t, r, rfl, hr, hexit, rfl⟩ | ⟨exit, fates, r, rfl, hr, rfl⟩ | ⟨r, rfl, hr, rfl⟩ |
    ⟨rfl, rfl⟩ | ⟨rfl, rfl⟩ | ⟨rfl, rfl⟩ | ⟨counts, version, rfl, rfl⟩ | ⟨_, rfl⟩
  · exact hvalid
  · have hP : ∀ (body : ProgressSubmission κ χ) (s : ApiState κ χ ρ), body.Fetched →
        (∀ b ∈ s.batches, b.Valid) →
          ∀ b ∈ (s.submitProgress r.lease.engine body).1.batches, b.Valid :=
      fun body s _ h => s.submitProgress_valid h r.lease.engine body
    exact (hs.runner r hr).step_preserves hP (hG r hr) hvalid
  · rcases r.fetch.finish_cases r.lease exit fates with heq | ⟨body, _, ht⟩
    · exact heq ▸ hvalid
    · intro b hb
      apply hvalid b
      rw [← ht.batches]
      exact hb
  all_goals exact hvalid

theorem batches_valid (hw : Reachable (fun _ _ => True) w) : ∀ b ∈ w.api.batches, b.Valid := by
  have hpermits : ∀ (w : World κ β χ ρ) a, True → w.Permits (fun _ _ => True) a := by
    intro w a _
    cases a <;> first | trivial | exact fun _ _ _ _ _ _ => trivial
  induction hw with
  | start scan id =>
      intro b hb
      cases hb
  | step hw _ hstep ih => exact (hw.sound hpermits).batches_valid ih (hpermits _ _ trivial) hstep

/-- The rows hold the spec once: the coverage of an attempt that read all of it, and its
tallies on top of those from elsewhere. -/
structure CountsAlone (S : Events κ β χ ρ) (w : World κ β χ ρ) (api : ApiState κ χ ρ) :
    Prop where
  coverage : storedTotals api.db.task.coverage = totalsOf S
  counts : ∀ k, k ≠ .prefiltered → api.db.scan.counts k = w.others k + countsOf S k

/-- No batch accepted from the attempts that are over reported anything. -/
def NothingBefore (w : World κ β χ ρ) : Prop :=
  ∀ a ∈ w.past, ∀ body ∈ a.accepted,
    body.totals = 0 ∧ ∀ k, k ≠ .prefiltered → body.counts k = 0

def earlier (w : World κ β χ ρ) : List (ProgressSubmission κ χ) :=
  w.past.flatMap AttemptLog.accepted

omit [DecidableEq χ] in
theorem nothingBefore_iff (hvalid : ∀ body ∈ w.earlier, body.Valid) :
    w.NothingBefore ↔ (w.earlier.map ProgressSubmission.totals).sum = 0 ∧
      ∀ k, k ≠ .prefiltered → (w.earlier.map ProgressSubmission.counts).sum k = 0 := by
  have hmem : ∀ body, body ∈ w.earlier ↔ ∃ a ∈ w.past, body ∈ a.accepted :=
    fun body => List.mem_flatMap
  constructor
  · intro hnothing
    have hzero : ∀ body ∈ w.earlier,
        body.totals = 0 ∧ ∀ k, k ≠ .prefiltered → body.counts k = 0 := by
      intro body hbody
      obtain ⟨a, ha, hb⟩ := (hmem body).1 hbody
      exact hnothing a ha body hb
    constructor
    · apply List.sum_eq_zero
      intro t ht
      obtain ⟨body, hbody, rfl⟩ := List.mem_map.1 ht
      exact (hzero body hbody).1
    · intro k hk
      rw [sum_counts_apply]
      apply List.sum_eq_zero
      intro n hn
      obtain ⟨body, hbody, rfl⟩ := List.mem_map.1 hn
      exact (hzero body hbody).2 k hk
  · -- what is reported is never negative, so a sum of zero is a sum of zeros
    rintro ⟨htotals, hcounts⟩ a ha body hb
    have hbody := (hmem body).2 ⟨a, ha, hb⟩
    constructor
    · refine List.all_zero_of_le_zero_le_of_sum_eq_zero ?_ htotals (List.mem_map_of_mem hbody)
      intro t ht
      obtain ⟨b, hb, rfl⟩ := List.mem_map.1 ht
      exact (hvalid b hb).totals_nonneg
    · intro k hk
      have hsum := hcounts k hk
      rw [sum_counts_apply] at hsum
      have hnonneg : ∀ n ∈ w.earlier.map (fun b => b.counts k), 0 ≤ n := by
        intro n hn
        obtain ⟨b, hb, rfl⟩ := List.mem_map.1 hn
        exact (hvalid b hb).counts_nonneg k
      exact List.all_zero_of_le_zero_le_of_sum_eq_zero hnonneg hsum
        (List.mem_map.2 ⟨body, hbody, rfl⟩)

omit [DecidableEq χ] in
/-- The rows after the report of an attempt that read to the end: what the earlier
attempts had accepted, and all that this one went through. -/
theorem Sound.finished {G : χ → Events κ β χ ρ → Prop} (hs : w.Sound G) {r : Runner κ β χ ρ}
    (hr : w.runner = some r) (hexit : r.fetch.exit = none) {api : ApiState κ χ ρ}
    {body : ResultsSubmission κ ρ} (hbody : r.fetch.report r.lease .exhausted = some body)
    (ht : ResultsTaken w.api api r.lease.engine body) :
    storedTotals api.db.task.coverage =
        (w.earlier.map ProgressSubmission.totals).sum + totalsOf r.history ∧
      ∀ k, k ≠ .prefiltered → api.db.scan.counts k = w.others k +
        ((w.earlier.map ProgressSubmission.counts).sum k + countsOf r.history k) := by
  have hresults := hs.api.unreported (ScanTaskStatus.not_terminal_of_leased ht.leased)
  have hapi := hs.api.resultsTaken ht (Fetch.report_coverage_isSome hbody)
  have htally : api.Tallied w.others := ht.tallied hs.counts
  obtain ⟨htotals, hcounts⟩ := (hs.runner r hr).report_totals hexit hbody ht
  have hsplit : w.api.batches = w.earlier ++ r.accepted w.api := by
    rw [earlier, hs.past_accepted hr]
    exact (List.take_append_drop _ _).symm
  have hstatus : api.db.task.status ≠ .cancelled := by
    obtain ⟨delta, merged, _, _, htask⟩ := ht.task
    rw [htask]
    exact (effectiveOutcome_ne_cancelled _ _ (ApiState.resultsTaken_status ht)).2
  constructor
  · rw [hapi.coverage hstatus, ApiState.takenTotals, ht.batches, ht.results, hresults, hsplit,
      List.map_append, List.sum_append, List.nil_append, List.map_singleton, List.sum_singleton,
      add_assoc, htotals]
  · intro k hk
    rw [show api.db.scan.counts = w.others + api.takenCounts from htally, ApiState.takenCounts,
      ht.batches, ht.results, hresults, hsplit, List.map_append, List.sum_append,
      List.nil_append, List.map_singleton, List.sum_singleton]
    simp only [Pi.add_apply]
    rw [← hcounts k hk]
    ring

/-- When the report of an attempt that reads all of `S` from the top is accepted, the
task and its scan count `S` once if and only if nothing was reported before. -/
theorem restart_counts_alone_iff (hw : Reachable (fun _ _ => True) w) {r : Runner κ β χ ρ}
    (hr : w.runner = some r) (htop : r.lease.checkpoint = none) (hexit : r.fetch.exit = none)
    {S : Events κ β χ ρ}
    (hall : r.history = rest ConnectorEvent.published r.lease.checkpoint S) {fates : List Fate}
    (haccepted : (r.fetch.finish r.lease .exhausted fates w.api).results ≠ w.api.results) :
    w.CountsAlone S (r.fetch.finish r.lease .exhausted fates w.api) ↔ w.NothingBefore := by
  have hs : w.Sound (fun _ _ => True) := by
    apply hw.sound
    intro w a _
    cases a <;> first | trivial | exact fun _ _ _ _ _ _ => trivial
  have hvalid : ∀ body ∈ w.earlier, body.Valid := by
    intro body hbody
    apply batches_valid hw body
    rw [earlier, hs.past_accepted hr] at hbody
    exact List.mem_of_mem_take hbody
  rw [htop] at hall
  obtain rfl : r.history = S := hall
  rcases r.fetch.finish_cases r.lease .exhausted fates with heq | ⟨body, hbody, ht⟩
  · exact absurd (congrArg ApiState.results heq) haccepted
  · rw [hexit] at hbody
    obtain ⟨hcoverage, hcounts⟩ := hs.finished hr hexit hbody ht
    rw [nothingBefore_iff hvalid]
    constructor
    · intro halone
      have hsum := halone.coverage
      rw [hcoverage] at hsum
      refine ⟨add_eq_right.1 hsum, fun k hk => ?_⟩
      have hk' := halone.counts k hk
      rw [hcounts k hk] at hk'
      omega
    · rintro ⟨htotals, hnone⟩
      refine ⟨?_, fun k hk => ?_⟩
      · rw [hcoverage, htotals, zero_add]
      · rw [hcounts k hk, hnone k hk, zero_add]

/-! Two restarts after another task has reported with another pack. -/

/-- An engine has a batch accepted and dies; the scan's pack moves, and the next engine
is to read everything again. -/
def restartAfter (source : Events ℕ Unit ℕ Unit) (last : ConnectorEvent ℕ Unit ℕ Unit) :
    List (Action ℕ Unit ℕ Unit) :=
  [.lease sampleGrant 0] ++ source.map (.connector · {}) ++
    [.connector last (lateTick [.answered]), .die, .reclaim, .otherReport 0 (some "2"),
      .lease { sampleGrant with engine := 2 } 40] ++
    (source ++ [last]).map (.connector · {})

/-- The runner has started over and read everything, and its report will be accepted. -/
def Reread (S : Events ℕ Unit ℕ Unit) (w : World ℕ Unit ℕ Unit) (r : Runner ℕ Unit ℕ Unit) :
    Prop :=
  r.lease.checkpointSequence = 1 ∧ r.lease.checkpoint = none ∧ r.fetch.exit = none ∧
    r.history = rest ConnectorEvent.published r.lease.checkpoint S ∧
    (r.fetch.finish r.lease .exhausted [.answered] w.api).results.length ≠ w.api.results.length

instance (S : Events ℕ Unit ℕ Unit) (w : World ℕ Unit ℕ Unit) (r : Runner ℕ Unit ℕ Unit) :
    Decidable (Reread S w r) := inferInstanceAs (Decidable (_ ∧ _))

def unrecordedPage : Events ℕ Unit ℕ Unit := [sampleUnit [3], .checkpointAt 1]

def noCoverage : CoveragePayload := (FetchOutcome.start none : FetchOutcome Unit ℕ Unit).asCoverage

/-- What was accepted before is a batch that reports nothing. -/
theorem restart_counts_alone_after_empty_batch : ∃ (w : World ℕ Unit ℕ Unit)
    (r : Runner ℕ Unit ℕ Unit), w.runner = some r ∧ r.lease.checkpointSequence = 1 ∧
      w.CountsAlone (unrecordedPage ++ [sampleUnit [4]])
        (r.fetch.finish r.lease .exhausted [.answered] w.api) := by
  have hrun : ((start {} 0 : World ℕ Unit ℕ Unit).run (fun _ _ => True)
      (restartAfter unrecordedPage (sampleUnit [4]))).any (fun w => w.runner.any fun r =>
        Reread (unrecordedPage ++ [sampleUnit [4]]) w r ∧ ∀ a ∈ w.past, ∀ body ∈ a.accepted,
          body.coverage = some noCoverage ∧ ∀ k, body.counts k = 0) := by decide +kernel
  obtain ⟨w, hw, hlast⟩ := (Option.any_eq_true _ _).1 hrun
  obtain ⟨r, hr, hreread⟩ := (Option.any_eq_true _ _).1 hlast
  obtain ⟨⟨hsequence, htop, hexit, hall, hresults⟩, hempty⟩ := of_decide_eq_true hreread
  refine ⟨w, r, hr, hsequence, (restart_counts_alone_iff ((Reachable.start {} 0).run hw) hr htop
    hexit hall fun heq => hresults (congrArg List.length heq)).2 ?_⟩
  intro a ha body hb
  obtain ⟨hcoverage, hcounts⟩ := hempty a ha body hb
  refine ⟨?_, fun k _ => hcounts k⟩
  rw [ProgressSubmission.totals, hcoverage]
  funext i
  cases i <;> rfl

def twoPages : Events ℕ Unit ℕ Unit :=
  [.scannedFor, sampleUnit [3], .checkpointAt 1, .scannedFor]

/-- Of two pages the first was in an accepted batch, and it counts again. -/
theorem restart_can_count_twice : ∃ (w : World ℕ Unit ℕ Unit) (r : Runner ℕ Unit ℕ Unit),
    Reachable (fun _ _ => True) w ∧ w.runner = some r ∧
      Reread (twoPages ++ [sampleUnit [4]]) w r ∧
      ¬ w.CountsAlone (twoPages ++ [sampleUnit [4]])
        (r.fetch.finish r.lease .exhausted [.answered] w.api) := by
  have hrun : ((start {} 0 : World ℕ Unit ℕ Unit).run (fun _ _ => True)
      (restartAfter twoPages (sampleUnit [4]))).any (fun w => w.runner.any fun r =>
        Reread (twoPages ++ [sampleUnit [4]]) w r ∧
          storedTotals (r.fetch.finish r.lease .exhausted [.answered] w.api).db.task.coverage
            .scanned ≠ totalsOf (twoPages ++ [sampleUnit [4]]) .scanned) := by decide +kernel
  obtain ⟨w, hw, hlast⟩ := (Option.any_eq_true _ _).1 hrun
  obtain ⟨r, hr, hreread⟩ := (Option.any_eq_true _ _).1 hlast
  obtain ⟨hreread, htwice⟩ := of_decide_eq_true hreread
  refine ⟨w, r, (Reachable.start {} 0).run hw, hr, hreread, fun halone => ?_⟩
  exact htwice (congrFun halone.coverage .scanned)

end World

end IcebergSST
