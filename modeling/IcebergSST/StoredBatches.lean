import IcebergSST.WorkerLedger

/-!
# What the API has stored

The invariant of the wire. Whatever the interleaving, the batches are stored under
consecutive numbers, each on the coverage of its predecessor: a batch that continues the
counter was checked against the row as it still is. Every stored submission is counted
once.
-/

namespace IcebergSST

variable {κ β χ ρ : Type}

/-- A rewriting that stores no batch. Only the end of a task may replace the coverage. -/
structure ScanTask.Keeps (row row' : ScanTask χ ρ) : Prop where
  kind : row'.kind = row.kind
  sequence : row'.checkpointSequence = row.checkpointSequence
  resultKey : row'.resultKey = none → row.resultKey = none
  coverage : row'.status.Terminal = false →
    row.status.Terminal = false ∧ row'.coverage = row.coverage

theorem ScanTask.Keeps.refl (row : ScanTask χ ρ) : row.Keeps row :=
  ⟨rfl, rfl, fun h => h, fun h => ⟨h, rfl⟩⟩

theorem keeps_renewLease (db : Db χ ρ) : db.task.Keeps (renewLease db).task := by
  unfold renewLease
  split_ifs with hleased
  · exact ⟨rfl, rfl, fun h => h, fun _ => ⟨ScanTaskStatus.not_terminal_of_leased hleased, rfl⟩⟩
  · exact .refl _

theorem keeps_reclaimExpiredLease (db : Db χ ρ) : db.task.Keeps (reclaimExpiredLease db).task := by
  unfold reclaimExpiredLease
  split_ifs with hleased
  · exact ⟨rfl, rfl, fun h => h, fun _ => ⟨ScanTaskStatus.not_terminal_of_leased hleased, rfl⟩⟩
  · exact .refl _

theorem keeps_cancelTask (db : Db χ ρ) : db.task.Keeps (cancelTask db).task := by
  unfold cancelTask
  split_ifs
  · exact .refl _
  · exact ⟨rfl, rfl, fun h => h, fun h => (by cases h)⟩

theorem keeps_leaseTask {db db' : Db χ ρ} {g : Grant κ β} {lease : Lease κ β χ}
    (h : leaseTask db g = some (db', lease)) :
    db'.scan = db.scan ∧ db.task.Keeps db'.task ∧
      lease.checkpointSequence = db.task.checkpointSequence := by
  obtain ⟨hqueued, rfl, _, _, hseq⟩ := leaseTask_eq_some h
  rw [hseq]
  unfold leasedDb discardCheckpoint
  split_ifs <;> exact ⟨rfl, ⟨rfl, rfl, fun h => h, fun _ => ⟨by rw [hqueued]; rfl, rfl⟩⟩, rfl⟩

theorem keeps_failLease {db db' : Db χ ρ} {engine : EngineId} {failure : LeaseFailure}
    (h : failLease db engine failure = some db') : db'.scan = db.scan ∧ db.task.Keeps db'.task := by
  obtain ⟨claimed, hclaim, rfl⟩ := Option.map_eq_some_iff.1 h
  unfold claimTask at hclaim
  split_ifs at hclaim
  obtain rfl := Option.some.inj hclaim
  exact ⟨rfl, rfl, rfl, fun h => h, fun h => (by cases h)⟩

theorem ResultsStored.terminal {db db' : Db χ ρ} {engine : EngineId} {body : ResultsSubmission κ ρ}
    (hst : ResultsStored db db' engine body) (hend : body.status.Terminal) :
    db'.task.status.Terminal = true := by
  rcases hst.status with h | h <;> rw [h]
  · rfl
  · exact hend

theorem ResultsStored.keeps {db db' : Db χ ρ} {engine : EngineId} {body : ResultsSubmission κ ρ}
    (hst : ResultsStored db db' engine body) (hend : db'.task.status.Terminal = true) :
    db.task.Keeps db'.task := by
  obtain ⟨hkind, hkey, hseq⟩ := hst.task
  refine ⟨hkind, hseq, fun h => ?_, fun h => ?_⟩
  · rw [hkey] at h
    cases h
  · rw [hend] at h
    cases h

/-- The row a request read against the row as it is. -/
structure ReadBy (row : ScanTask χ ρ) (overtaken : Bool) (task : ScanTask χ ρ) : Prop where
  kind : row.kind = task.kind
  sequence_le : row.checkpointSequence ≤ task.checkpointSequence
  kept : overtaken = false → row.checkpointSequence = task.checkpointSequence
  coverage : row.checkpointSequence = task.checkpointSequence → task.status.Terminal = false →
    row.coverage = task.coverage

/-- What the checks of a route make sure of. -/
def Message.Based (m : Message κ χ ρ) (row : ScanTask χ ρ) : Prop :=
  match m with
  | .progress _ body => body.sequence ≤ row.checkpointSequence + 1
  | .results body => body.checkpointSequence = row.checkpointSequence ∧ body.status.Terminal

structure Request.Fits (q : Request κ χ ρ) (task : ScanTask χ ρ) : Prop where
  offered : ∀ i body, q.message = .progress i body → q.stage = .sent →
    body.sequence ≤ task.checkpointSequence + 1
  checked : ∀ row overtaken, q.stage = .checked row overtaken →
    ReadBy row overtaken task ∧ q.message.Based row
  answered : ∀ n, q.stage = .answered (.ok n) → n ≤ task.checkpointSequence

section Fits
variable {q : Request κ χ ρ} {task task' : ScanTask χ ρ}

theorem Request.Fits.keeps (hf : q.Fits task) (hk : task.Keeps task') : q.Fits task' where
  offered := by
    rw [hk.sequence]
    exact hf.offered
  checked := by
    intro row overtaken hstage
    obtain ⟨hread, hbased⟩ := hf.checked row overtaken hstage
    refine ⟨⟨hk.kind ▸ hread.kind, hk.sequence ▸ hread.sequence_le, hk.sequence ▸ hread.kept, ?_⟩,
      hbased⟩
    intro hseq hlive
    obtain ⟨hlive', hcov⟩ := hk.coverage hlive
    rw [hcov]
    exact hread.coverage (hk.sequence ▸ hseq) hlive'
  answered := by
    rw [hk.sequence]
    exact hf.answered

theorem Request.Fits.overtake (hf : q.Fits task) (hkind : task'.kind = task.kind)
    (hseq : task'.checkpointSequence = task.checkpointSequence + 1) : q.overtake.Fits task' := by
  unfold Request.overtake
  split
  · rename_i row _ hstage
    obtain ⟨hread, hbased⟩ := hf.checked row _ hstage
    refine ⟨fun _ _ _ h => (by cases h), ?_, fun _ h => (by cases h)⟩
    intro row' overtaken' h
    obtain ⟨rfl, rfl⟩ := Stage.checked.inj h
    have hle := hread.sequence_le
    exact ⟨⟨hkind ▸ hread.kind, by omega, fun h => (by cases h), fun h => by omega⟩, hbased⟩
  · rename_i hno
    refine ⟨fun i body hm hs => ?_, fun row ov h => absurd h (hno row ov), fun n h => ?_⟩
    · have hle := hf.offered i body hm hs
      omega
    · have hle := hf.answered n h
      omega

theorem Request.Fits.of_error (engine : EngineId) (message : Message κ χ ρ) (refusal : Refusal) :
    Request.Fits { engine, message, stage := .answered (.error refusal) } task :=
  ⟨fun _ _ _ h => (by cases h), fun _ _ h => (by cases h), fun _ h => (by cases h)⟩

/-- The checks of a route leave a request that fits the row they read. -/
theorem Request.Fits.check {db : Db χ ρ} (hf : q.Fits db.task) (hstage : q.stage = .sent) :
    ({ q with stage := q.check db } : Request κ χ ρ).Fits db.task := by
  have hread : ReadBy db.task false db.task := ⟨rfl, le_rfl, fun _ => rfl, fun _ _ => rfl⟩
  unfold Request.check
  cases hm : q.message with
  | progress i body =>
      simp only
      cases progressRefusal db.task q.engine body with
      | some refusal => exact .of_error _ _ refusal
      | none =>
          refine ⟨fun _ _ _ h => (by cases h), ?_, fun _ h => (by cases h)⟩
          intro row overtaken h
          obtain ⟨rfl, rfl⟩ := Stage.checked.inj h
          refine ⟨hread, ?_⟩
          simp only [Message.Based]
          exact hf.offered i body hm hstage
  | results body =>
      simp only
      cases href : (if body.Valid then resultsRefusal db q.engine body
          else some .unprocessable) with
      | some refusal => exact .of_error _ _ refusal
      | none =>
          refine ⟨fun _ _ _ h => (by cases h), ?_, fun _ h => (by cases h)⟩
          intro row overtaken h
          obtain ⟨rfl, rfl⟩ := Stage.checked.inj h
          refine ⟨hread, ?_⟩
          simp only [Message.Based]
          split_ifs at href
          unfold resultsRefusal at href
          split_ifs at href with _ hstatus _ _ _ hseq
          refine ⟨not_not.1 hseq, ?_⟩
          rcases not_and_or.1 hstatus with h | h
          · rw [not_not.1 h]
            rfl
          · rw [not_not.1 h]
            rfl

end Fits

def coverageAfter (batches : List (StoredBatch κ χ)) (n : ℕ) : Option TaskCoverageReport :=
  (batches.take n).getLast?.bind StoredBatch.coverage

/-- A batch adds its own coverage to what was committed before it. -/
def Accumulates (kind : ScanTaskKind) (before : Option TaskCoverageReport)
    (body : ProgressSubmission κ χ) (after : Option TaskCoverageReport) : Prop :=
  (body.coverage = none ∧ after = before) ∨
    ∃ delta merged, body.coverage = some delta.payload ∧ after = some merged ∧
      mergeTaskReport (before.filter fun r => r.payload.phase = kind) delta = some merged

/-- Every batch is stored and counted once, under its own number and on the coverage of
the batches before it, and so are the results. -/
structure Wire.Counted (w : Wire κ β χ ρ) : Prop where
  numbered : w.batches.map (fun s => s.body.sequence) = List.range' 1 w.batches.length
  accumulated : ∀ n s, w.batches[n]? = some s →
    Accumulates w.db.task.kind (coverageAfter w.batches n) s.body s.coverage
  once : w.results.length ≤ 1
  counts : w.db.scan.counts = w.others + (w.batches.map fun s => s.body.counts).sum +
    (w.results.map fun s => s.body.counts).sum
  tallies : w.tallies = w.otherTallies + (w.batches.map StoredBatch.outcome).sum +
    (w.results.map StoredResults.outcome).sum

section Coverage
variable {batches : List (StoredBatch κ χ)}

theorem coverageAfter_append {n : ℕ} (h : n ≤ batches.length) (s : StoredBatch κ χ) :
    coverageAfter (batches ++ [s]) n = coverageAfter batches n := by
  rw [coverageAfter, List.take_append_of_le_length h, coverageAfter]

theorem coverageAfter_concat (s : StoredBatch κ χ) :
    coverageAfter (batches ++ [s]) (batches.length + 1) = s.coverage := by
  rw [coverageAfter, List.take_of_length_le (by simp), List.getLast?_concat, Option.bind_some]

end Coverage

theorem scan_counts (scan : Scan) (counts : Counts) (version : Option String) :
    (recordRulepack (mergeScanCounts scan counts) version).counts = scan.counts + counts := by
  unfold recordRulepack
  split_ifs <;> rfl

/-- The invariant: the rows are those the stored batches leave, and every attempt and
every request under way is behind them. -/
structure Wire.Numbered (w : Wire κ β χ ρ) : Prop where
  sequence : w.db.task.checkpointSequence = w.batches.length
  coverage : w.db.task.status.Terminal = false →
    w.db.task.coverage = coverageAfter w.batches w.batches.length
  workers : ∀ r ∈ w.workers, r.Sound ∧ ∀ b, r.fetch.batcher = some b →
    b.sequence ≤ w.db.task.checkpointSequence
  requests : ∀ q ∈ w.requests, q.Fits w.db.task
  unreported : w.db.task.resultKey = none → w.results = []
  counted : w.Counted

namespace Wire.Numbered
variable {w : Wire κ β χ ρ}

theorem parties (hs : w.Numbered) {workers : List (Worker κ β χ ρ)}
    {requests : List (Request κ χ ρ)}
    (hworkers : ∀ r ∈ workers, r ∈ w.workers ∨ r.Sound ∧ ∀ b, r.fetch.batcher = some b →
      b.sequence ≤ w.db.task.checkpointSequence)
    (hrequests : ∀ q ∈ requests, q ∈ w.requests ∨ q.Fits w.db.task) :
    ({ w with workers, requests } : Wire κ β χ ρ).Numbered where
  sequence := hs.sequence
  coverage := hs.coverage
  workers := fun r hr => (hworkers r hr).elim (hs.workers r) id
  requests := fun q hq => (hrequests q hq).elim (hs.requests q) id
  unreported := hs.unreported
  counted := ⟨hs.counted.numbered, hs.counted.accumulated, hs.counted.once, hs.counted.counts,
    hs.counted.tallies⟩

theorem rewrite (hs : w.Numbered) {db : Db χ ρ} (hscan : db.scan = w.db.scan)
    (hk : w.db.task.Keeps db.task) : ({ w with db } : Wire κ β χ ρ).Numbered where
  sequence := hk.sequence.trans hs.sequence
  coverage := by
    intro hlive
    obtain ⟨hlive', hcov⟩ := hk.coverage hlive
    exact hcov.trans (hs.coverage hlive')
  workers := by
    intro r hr
    rw [show db.task.checkpointSequence = _ from hk.sequence]
    exact hs.workers r hr
  requests := fun q hq => (hs.requests q hq).keeps hk
  unreported := fun h => hs.unreported (hk.resultKey h)
  counted := by
    refine ⟨hs.counted.numbered, ?_, hs.counted.once, ?_, hs.counted.tallies⟩
    · rw [show db.task.kind = _ from hk.kind]
      exact hs.counted.accumulated
    · rw [hscan]
      exact hs.counted.counts

theorem setWorker (hs : w.Numbered) {i : ℕ} {r : Worker κ β χ ρ} (hsound : r.Sound)
    (hle : ∀ b, r.fetch.batcher = some b → b.sequence ≤ w.db.task.checkpointSequence) :
    ({ w with workers := w.workers.set i r } : Wire κ β χ ρ).Numbered := by
  refine hs.parties (fun r' hr' => ?_) (fun q hq => Or.inl hq)
  rcases List.mem_or_eq_of_mem_set hr' with hold | rfl
  · exact Or.inl hold
  · exact Or.inr ⟨hsound, hle⟩

theorem setRequest (hs : w.Numbered) {k : ℕ} {q : Request κ χ ρ} (hf : q.Fits w.db.task) :
    ({ w with requests := w.requests.set k q } : Wire κ β χ ρ).Numbered := by
  refine hs.parties (fun r hr => Or.inl hr) (fun q' hq' => ?_)
  rcases List.mem_or_eq_of_mem_set hq' with hold | rfl
  · exact Or.inl hold
  · exact Or.inr hf

theorem addRequest (hs : w.Numbered) {q : Request κ χ ρ} (hf : q.Fits w.db.task) :
    ({ w with requests := w.requests ++ [q] } : Wire κ β χ ρ).Numbered := by
  refine hs.parties (fun r hr => Or.inl hr) (fun q' hq' => ?_)
  rcases List.mem_append.1 hq' with hold | hnew
  · exact Or.inl hold
  · obtain rfl := List.mem_singleton.1 hnew
    exact Or.inr hf

theorem answered (hs : w.Numbered) {k : ℕ} (q : Request κ χ ρ) {answer : Except Refusal ℕ}
    (hn : ∀ n, answer = .ok n → n ≤ w.db.task.checkpointSequence) :
    (w.answer k q answer).Numbered := by
  refine hs.setRequest ⟨fun _ _ _ h => (by cases h), fun _ _ h => (by cases h), fun n h => ?_⟩
  exact hn n (Stage.answered.inj h)

/-- A batch is merged onto the coverage of its predecessor: at the counter its number
continues, the row it was checked against is still the row there is. -/
theorem storeBatch (hs : w.Numbered) {k i : ℕ} {q : Request κ χ ρ} {row : ScanTask χ ρ}
    {overtaken : Bool} {body : ProgressSubmission κ χ} {db : Db χ ρ}
    (hread : ReadBy row overtaken w.db.task) (hbased : body.sequence ≤ row.checkpointSequence + 1)
    (hst : BatchStored row w.db db q.engine body) (outcome : IngestOutcome) :
    (w.storeBatch k q i body db outcome).Numbered := by
  have hlive := ScanTaskStatus.not_terminal_of_leased hst.leased
  obtain ⟨coverage, htask, hmerge⟩ := hst.task
  have hseq : db.task.checkpointSequence = w.db.task.checkpointSequence + 1 := by
    rw [htask, hst.sequence]
  have hkind : db.task.kind = w.db.task.kind := by rw [htask]
  have hcov : db.task.coverage = coverage := by rw [htask]
  have hsame : row.checkpointSequence = w.db.task.checkpointSequence := by
    have hle := hread.sequence_le
    have hnum := hst.sequence
    omega
  have hrow : row.coverage = coverageAfter w.batches w.batches.length :=
    (hread.coverage hsame hlive).trans (hs.coverage hlive)
  have hdone : w.results = [] := hs.unreported hst.unreported
  refine ⟨?_, ?_, ?_, ?_, fun _ => hdone, ?_⟩
  · change db.task.checkpointSequence = (w.batches ++ [_]).length
    rw [hseq, hs.sequence, List.length_append, List.length_singleton]
  · intro _
    change db.task.coverage = coverageAfter (w.batches ++ [_]) (w.batches ++ [_]).length
    rw [List.length_append, List.length_singleton, coverageAfter_concat]
  · intro r hr
    obtain ⟨hsound, hle⟩ := hs.workers r hr
    refine ⟨hsound, fun b hb => ?_⟩
    have hlt := hle b hb
    change b.sequence ≤ db.task.checkpointSequence
    omega
  · intro q' hq'
    rcases List.mem_or_eq_of_mem_set hq' with hold | rfl
    · obtain ⟨q₀, hq₀, rfl⟩ := List.mem_map.1 hold
      exact (hs.requests q₀ hq₀).overtake hkind hseq
    · refine ⟨fun _ _ _ h => (by cases h), fun _ _ h => (by cases h), fun n h => ?_⟩
      obtain rfl := Except.ok.inj (Stage.answered.inj h)
      change body.sequence ≤ db.task.checkpointSequence
      rw [hseq, hst.sequence]
  · have hm := hs.counted
    refine ⟨?_, ?_, hm.once, ?_, ?_⟩
    · change (w.batches ++ [_]).map _ = List.range' 1 (w.batches ++ [_]).length
      rw [List.map_append, hm.numbered, List.length_append, List.length_singleton,
        List.range'_concat, List.map_singleton]
      congr 2
      have hnum := hst.sequence
      have hlen := hs.sequence
      change body.sequence = _
      omega
    · intro n s hn
      change (w.batches ++ [_])[n]? = some s at hn
      change Accumulates db.task.kind (coverageAfter (w.batches ++ [_]) n) s.body s.coverage
      rw [hkind]
      by_cases hlt : n < w.batches.length
      · rw [List.getElem?_append_left hlt] at hn
        rw [coverageAfter_append hlt.le]
        exact hm.accumulated n s hn
      · have heq : n = w.batches.length := by
          have hbound := (List.getElem?_eq_some_iff.1 hn).1
          rw [List.length_append, List.length_singleton] at hbound
          omega
        subst heq
        rw [List.getElem?_concat_length] at hn
        obtain rfl := Option.some.inj hn
        rw [coverageAfter_append le_rfl, ← hrow]
        change Accumulates w.db.task.kind row.coverage body db.task.coverage
        rw [hcov, ← hread.kind]
        rcases hmerge with ⟨hnone, hkept⟩ | ⟨delta, merged, hbody, hmerged, heq⟩
        · refine Or.inl ⟨hnone, hkept.trans ?_⟩
          exact (hread.coverage hsame hlive).symm
        · exact Or.inr ⟨delta, merged, hbody, hmerged, heq⟩
    · change db.scan.counts = w.others + ((w.batches ++ [_]).map _).sum + (w.results.map _).sum
      rw [hst.scan, scan_counts, hm.counts, List.map_append, List.sum_append, List.map_singleton,
        List.sum_singleton]
      dsimp only
      abel
    · change w.tallies + outcome =
        w.otherTallies + ((w.batches ++ [_]).map _).sum + (w.results.map _).sum
      rw [hm.tallies, List.map_append, List.sum_append, List.map_singleton, List.sum_singleton]
      dsimp only
      abel

theorem storeResults (hs : w.Numbered) {k : ℕ} {q : Request κ χ ρ} (row : ScanTask χ ρ)
    {body : ResultsSubmission κ ρ} {db : Db χ ρ} (hend : body.status.Terminal)
    (hst : ResultsStored w.db db q.engine body) (outcome : IngestOutcome) :
    (w.storeResults k q row body db outcome).Numbered := by
  obtain ⟨hkind, hkey, hseq⟩ := hst.task
  have hdone : w.results = [] := hs.unreported hst.unreported
  have hend := hst.terminal hend
  have hk := hst.keeps hend
  have hm := hs.counted
  refine ⟨hseq.trans hs.sequence, fun h => absurd h (by simp [Wire.storeResults, hend]), ?_, ?_,
    ?_, ⟨hm.numbered, ?_, ?_, ?_, ?_⟩⟩
  · intro r hr
    change r.Sound ∧ ∀ b, r.fetch.batcher = some b → b.sequence ≤ db.task.checkpointSequence
    rw [hseq]
    exact hs.workers r hr
  · intro q' hq'
    rcases List.mem_or_eq_of_mem_set hq' with hold | rfl
    · exact (hs.requests q' hold).keeps hk
    · refine ⟨fun _ _ _ h => (by cases h), fun _ _ h => (by cases h), fun n h => ?_⟩
      obtain rfl := Except.ok.inj (Stage.answered.inj h)
      exact Nat.zero_le _
  · intro h
    change db.task.resultKey = none at h
    rw [hkey] at h
    cases h
  · change ∀ n s, w.batches[n]? = some s → Accumulates db.task.kind _ _ _
    rw [hkind]
    exact hm.accumulated
  · change (w.results ++ [_]).length ≤ 1
    rw [hdone]
    exact le_rfl
  · change db.scan.counts =
      w.others + (w.batches.map _).sum + ((w.results ++ [_]).map _).sum
    rw [hst.scan, scan_counts, hm.counts, List.map_append, List.sum_append, List.map_singleton,
      List.sum_singleton]
    dsimp only
    abel
  · change w.tallies + outcome =
      w.otherTallies + (w.batches.map _).sum + ((w.results ++ [_]).map _).sum
    rw [hm.tallies, List.map_append, List.sum_append, List.map_singleton, List.sum_singleton]
    dsimp only
    abel

variable [DecidableEq χ]

theorem step (hs : w.Numbered) {a : WireAction κ β χ ρ} {w' : Wire κ β χ ρ}
    (h : w.step a = some w') : w'.Numbered := by
  cases a with
  | lease g now =>
      obtain ⟨⟨db, lease⟩, hlease, rfl⟩ := Option.map_eq_some_iff.1 h
      obtain ⟨hscan, hk, hseq⟩ := keeps_leaseTask hlease
      have hrows := hs.rewrite hscan hk
      refine hrows.parties (fun r hr => ?_) (fun q hq => Or.inl hq)
      rcases List.mem_append.1 hr with hold | hnew
      · exact Or.inl hold
      · obtain rfl := List.mem_singleton.1 hnew
        refine Or.inr ⟨Worker.sound_start lease now, fun b hb => ?_⟩
        unfold Fetch.start at hb
        dsimp only at hb
        split_ifs at hb
        obtain rfl := Option.some.inj hb
        exact (hseq.trans hk.sequence.symm).le
  | failLease engine failure =>
      obtain ⟨db, hfail, rfl⟩ := Option.map_eq_some_iff.1 h
      obtain ⟨hscan, hk⟩ := keeps_failLease hfail
      exact hs.rewrite hscan hk
  | worker i a =>
      obtain ⟨r', hstep, rfl⟩ := Option.map_eq_some_iff.1 h
      obtain ⟨r, hr, hstep⟩ := Option.bind_eq_some_iff.1 hstep
      obtain ⟨hsound, hle⟩ := hs.workers r (List.mem_of_getElem? hr)
      refine hs.setWorker (hsound.step hstep) fun b' hb' => ?_
      obtain ⟨b, hb, hseq, _⟩ := Worker.step_batcher hstep hb'
      rw [hseq]
      exact hle b hb
  | transmit i =>
      obtain ⟨r, message, hr, hmessage, rfl⟩ := Wire.step_transmit h
      obtain ⟨hsound, hle⟩ := hs.workers r (List.mem_of_getElem? hr)
      have hcalled := hs.setWorker (i := i) (hsound.call w.requests.length) fun b hb =>
        hle b (Worker.call_fetch (r := r) w.requests.length ▸ hb)
      refine hcalled.addRequest ⟨fun j body hm _ => ?_, fun _ _ h => (by cases h),
        fun _ h => (by cases h)⟩
      change message = .progress j body at hm
      subst hm
      unfold Worker.message at hmessage
      split at hmessage
      · obtain ⟨batch, hbatch, heq⟩ := Option.map_eq_some_iff.1 hmessage
        obtain ⟨b, hb, hflight⟩ := Option.bind_eq_some_iff.1 hbatch
        obtain ⟨_, rfl⟩ := Message.progress.inj heq
        rw [(hsound.kept b hb).inFlight hflight]
        exact Nat.succ_le_succ (hle b hb)
      · cases hmessage
      · cases hmessage
  | post engine body =>
      obtain rfl := Option.some.inj h
      exact hs.addRequest ⟨fun _ _ hm _ => (by cases hm), fun _ _ h => (by cases h),
        fun _ h => (by cases h)⟩
  | check k =>
      obtain ⟨q, hq, hstage, rfl⟩ := Wire.step_check h
      exact hs.setRequest ((hs.requests q (List.mem_of_getElem? hq)).check hstage)
  | commit k outcome =>
      obtain ⟨q, row, overtaken, hq, hstage, rfl⟩ := Wire.step_commit h
      obtain ⟨hread, hbased⟩ :=
        (hs.requests q (List.mem_of_getElem? hq)).checked row overtaken hstage
      rcases w.commit_cases k q row outcome with ⟨i, body, db, hm, hst, heq⟩ |
        ⟨body, db, hm, hst, heq⟩ | ⟨answer, heq, hn⟩
      · rw [heq]
        rw [hm] at hbased
        exact hs.storeBatch hread hbased hst outcome
      · rw [heq]
        rw [hm] at hbased
        exact hs.storeResults row hbased.2 hst outcome
      · rw [heq]
        exact hs.answered q fun n h => (hn n h).1
  | receive i rearmed =>
      obtain ⟨r, unit, k, q, answer, r', hr, -, hq, hanswer, hreceive, rfl⟩ := Wire.step_receive h
      obtain ⟨hsound, hle⟩ := hs.workers r (List.mem_of_getElem? hr)
      refine hs.setWorker (hsound.receive hreceive) fun b' hb' => ?_
      obtain ⟨b, hb, hcases⟩ := Worker.receive_batcher hreceive hb'
      have hb := hle b hb
      rcases hcases with ⟨hseq, _⟩ | ⟨batch, n, _, rfl, _, ⟨_, hseq, _⟩ | ⟨_, hseq, _⟩⟩
      · omega
      · omega
      · rw [hseq]
        exact (hs.requests _ (List.mem_of_getElem? hq)).answered n hanswer
  | renew =>
      obtain rfl := Option.some.inj h
      refine hs.rewrite ?_ (keeps_renewLease w.db)
      unfold renewLease
      split_ifs <;> rfl
  | reclaim =>
      obtain rfl := Option.some.inj h
      refine hs.rewrite ?_ (keeps_reclaimExpiredLease w.db)
      unfold reclaimExpiredLease
      split_ifs <;> rfl
  | cancel =>
      obtain rfl := Option.some.inj h
      refine hs.rewrite ?_ (keeps_cancelTask w.db)
      unfold cancelTask
      split_ifs <;> rfl
  | otherReport counts outcome version =>
      obtain rfl := Option.some.inj h
      have hm := hs.counted
      refine ⟨hs.sequence, hs.coverage, hs.workers, hs.requests, hs.unreported,
        hm.numbered, hm.accumulated, hm.once, ?_, ?_⟩
      · change (recordRulepack (mergeScanCounts w.db.scan counts) version).counts =
          w.others + counts + _ + (w.results.map _).sum
        rw [scan_counts, hm.counts]
        abel
      · change w.tallies + outcome = w.otherTallies + outcome + _ + (w.results.map _).sum
        rw [hm.tallies]
        abel

end Wire.Numbered

namespace Wire

def Started (w : Wire κ β χ ρ) : Prop := ∃ scan id kind, w = start scan id kind

theorem numbered_of_started {w : Wire κ β χ ρ} (h : w.Started) : w.Numbered := by
  obtain ⟨scan, id, kind, rfl⟩ := h
  have hempty : coverageAfter ([] : List (StoredBatch κ χ)) 0 = none := rfl
  refine ⟨rfl, fun _ => hempty.symm, fun r hr => (by cases hr), fun q hq => (by cases hq),
    fun _ => rfl, rfl, fun n s hn => (by cases hn), Nat.zero_le _, ?_, ?_⟩
  · exact (add_zero _).symm.trans (add_zero _).symm
  · exact (add_zero _).symm.trans (add_zero _).symm

/-- No condition on the steps is needed for what is stored to be numbered and counted. -/
theorem numbered_of_reachable [DecidableEq χ] {guard : Wire κ β χ ρ → WireAction κ β χ ρ → Prop}
    {w : Wire κ β χ ρ} (h : Machine.Reachable step guard Started w) : w.Numbered :=
  h.invariant (fun _ => numbered_of_started) fun _ _ _ hs _ hstep => hs.step hstep

/-- Only a commit stores anything. -/
theorem step_stored [DecidableEq χ] {w w' : Wire κ β χ ρ} {a : WireAction κ β χ ρ}
    (h : w.step a = some w') :
    (w'.batches = w.batches ∧ w'.results = w.results) ∨
      ∃ k q row overtaken outcome, a = .commit k outcome ∧ w.requests[k]? = some q ∧
        q.stage = .checked row overtaken ∧ w' = w.commit k q row outcome := by
  cases a with
  | lease g now | failLease engine failure | worker i a =>
      obtain ⟨_, _, rfl⟩ := Option.map_eq_some_iff.1 h
      exact Or.inl ⟨rfl, rfl⟩
  | transmit i =>
      obtain ⟨r, message, -, -, rfl⟩ := step_transmit h
      exact Or.inl ⟨rfl, rfl⟩
  | check k =>
      obtain ⟨q, -, -, rfl⟩ := step_check h
      exact Or.inl ⟨rfl, rfl⟩
  | commit k outcome =>
      obtain ⟨q, row, overtaken, hq, hstage, rfl⟩ := step_commit h
      exact Or.inr ⟨k, q, row, overtaken, outcome, rfl, hq, hstage, rfl⟩
  | receive i rearmed =>
      obtain ⟨r, unit, k, q, answer, r', -, -, -, -, -, rfl⟩ := step_receive h
      exact Or.inl ⟨rfl, rfl⟩
  | post engine body | renew | reclaim | cancel | otherReport counts outcome version =>
      obtain rfl := Option.some.inj h
      exact Or.inl ⟨rfl, rfl⟩

/-! A worker with a batch to deliver, at the yield of the second unit. -/

def firstFlush : List (WireAction ℕ Unit ℕ Unit) :=
  [.lease sampleGrant 0, .worker 0 (.connector .scannedFor {}),
    .worker 0 (.connector (sampleUnit [3]) {}), .worker 0 (.connector (.checkpointAt 1) {}),
    .worker 0 (.connector .scannedFor {}), .worker 0 (.connector (sampleUnit [4]) (lateTick []))]

end Wire

end IcebergSST
