import IcebergSST.Gate
import IcebergSST.Library.WriteBack

/-!
# A task that is over and a lease that fails

`TaskLife` is one task with every version its rows have had and the leases that were
granted on it. Every transaction but one decides by the row it finds: a row that is over
is not claimed, renewed, reclaimed or cancelled, and no submission is stored for it. A
lease that fails for want of a secret writes the row it read after its claim, and does
not look at what stands.

What is written once a task is over is kept in every run without such a failure.
-/

namespace IcebergSST

variable {κ χ ρ : Type}

structure DatedRow (χ ρ : Type) where
  db : Db χ ρ
  finishedAt : Option ℕ := none

/-- What a task that is over is said never to change. -/
structure Ending where
  status : ScanTaskStatus
  engineId : Option EngineId
  resultKey : Option IdempotencyKey
  finishedAt : Option ℕ
  deriving DecidableEq

namespace DatedRow

def ending (row : DatedRow χ ρ) : Ending where
  status := row.db.task.status
  engineId := row.db.task.engineId
  resultKey := row.db.task.resultKey
  finishedAt := row.finishedAt

def Over (row : DatedRow χ ρ) : Prop := row.db.task.status.Terminal

instance (row : DatedRow χ ρ) : Decidable row.Over :=
  inferInstanceAs (Decidable (_ = true))

/-- `complete_task` on the row a lease read after its claim, written back over the row
that stands. -/
def leaseFailed (loaded stored : DatedRow χ ρ) (failure : LeaseFailure) (now : ℕ) :
    DatedRow χ ρ :=
  let task := completeTask loaded.db.task .failed (some failure.error)
    (some (failureReport loaded.db.task.kind failure.reason))
  { db := { stored.db with
      task := { stored.db.task with
        status := Column.writeBack loaded.db.task.status task.status stored.db.task.status
        error := Column.writeBack loaded.db.task.error task.error stored.db.task.error
        coverage :=
          Column.writeBack loaded.db.task.coverage task.coverage stored.db.task.coverage } }
    finishedAt := Column.writeBack loaded.finishedAt (some now) stored.finishedAt }

/-- `submit_results` from the scan lock on, with the instant it completes the task. -/
def resulted (loaded stored : DatedRow χ ρ) (engine : EngineId)
    (body : ResultsSubmission FindingPayload ρ) (now : ℕ) : DatedRow χ ρ :=
  let taken := lockedResults loaded.db.task stored.db engine body
  { db := taken.1
    finishedAt :=
      match taken.2 with
      | .ok { replay := false, .. } => some now
      | _ => stored.finishedAt }

def cancelled (row : DatedRow χ ρ) (now : ℕ) : DatedRow χ ρ :=
  { db := cancelTask row.db
    finishedAt := if row.db.task.status.Terminal then row.finishedAt else some now }

end DatedRow

structure TaskLife (χ ρ : Type) where
  row : DatedRow χ ρ
  /-- Every version of the row, the present one last. -/
  versions : List (DatedRow χ ρ)
  /-- For each lease granted, the version its claim committed. -/
  leases : List ℕ := []

/-- `read` numbers the version of the row that a request has read. -/
inductive LifeAction (χ ρ : Type)
  | lease (engine : EngineId)
  | leaseFails (lease read : ℕ) (failure : LeaseFailure) (now : ℕ)
  | discard (lease read : ℕ)
  | progress (read : ℕ) (engine : EngineId) (body : ProgressSubmission FindingPayload χ)
  | results (read : ℕ) (engine : EngineId) (body : ResultsSubmission FindingPayload ρ) (now : ℕ)
  | renew
  | reclaim
  | redispatch
  | cancel (now : ℕ)
  | otherReport (counts : Counts) (rulepackVersion : Option String)

namespace TaskLife

def start (scan : Scan) (id : ℕ) (kind : ScanTaskKind) : TaskLife χ ρ where
  row := { db := { scan, task := { id, kind } } }
  versions := [{ db := { scan, task := { id, kind } } }]

def commit (s : TaskLife χ ρ) (row : DatedRow χ ρ) : TaskLife χ ρ :=
  { s with row, versions := s.versions ++ [row] }

/-- The row that a lease read after its claim: the version it committed or a later one. -/
def leasedRow (s : TaskLife χ ρ) (lease read : ℕ) : Option (DatedRow χ ρ) :=
  s.leases[lease]?.bind fun claimed => if claimed ≤ read then s.versions[read]? else none

def step (s : TaskLife χ ρ) : LifeAction χ ρ → Option (TaskLife χ ρ)
  | .lease engine =>
      (claimTask s.row.db engine).map fun db =>
        { s.commit { s.row with db } with leases := s.leases ++ [s.versions.length] }
  | .leaseFails lease read failure now =>
      (s.leasedRow lease read).map fun loaded =>
        s.commit (loaded.leaseFailed s.row failure now)
  | .discard lease read =>
      (s.leasedRow lease read).bind fun loaded =>
        if loaded.db.task.checkpoint.isSome ∧
            ¬ checkpointStillValid loaded.db.task loaded.db.scan then
          some (s.commit { s.row with db := discardCheckpoint s.row.db })
        else none
  | .progress read engine body =>
      s.versions[read]?.bind fun loaded =>
        match progressRefusal loaded.db.task engine body with
        | some _ => none
        | none =>
            some (s.commit
              { s.row with db := (lockedProgress loaded.db.task s.row.db engine body).1 })
  | .results read engine body now =>
      s.versions[read]?.bind fun loaded =>
        match resultsRefusal loaded.db engine body with
        | some _ => none
        | none => some (s.commit (loaded.resulted s.row engine body now))
  | .renew => some (s.commit { s.row with db := renewLease s.row.db })
  | .reclaim => some (s.commit { s.row with db := reclaimExpiredLease s.row.db })
  | .redispatch => some (s.commit s.row)
  | .cancel now => some (s.commit (s.row.cancelled now))
  | .otherReport counts version =>
      some (s.commit { s.row with
        db := { s.row.db with
          scan := recordRulepack (mergeScanCounts s.row.db.scan counts) version } })

/-- No lease failure is written over a task that is over. -/
def Spares (s : TaskLife χ ρ) : LifeAction χ ρ → Prop
  | .leaseFails .. => ¬ s.row.Over
  | _ => True

instance (s : TaskLife χ ρ) (a : LifeAction χ ρ) : Decidable (s.Spares a) :=
  match a with
  | .leaseFails .. => inferInstanceAs (Decidable (¬ _))
  | .lease _ | .discard .. | .progress .. | .results .. | .renew | .reclaim | .redispatch
  | .cancel _ | .otherReport .. => .isTrue trivial

variable {s s' : TaskLife χ ρ}

theorem lockedResults_of_over {loaded stored : DatedRow χ ρ} (hover : stored.Over)
    (engine : EngineId) (body : ResultsSubmission FindingPayload ρ) (now : ℕ) :
    loaded.resulted stored engine body now = stored := by
  have hlive := TaskRecord.not_leased_of_terminal hover
  rcases lockedResults_cases loaded.db.task stored.db engine body with
    ⟨hstored, _⟩ | ⟨hsame, hanswer⟩
  · exact absurd hstored.leased hlive
  · unfold DatedRow.resulted
    dsimp only
    rw [hsame]
    cases hout : (lockedResults loaded.db.task stored.db engine body).2 with
    | error _ => rfl
    | ok answer =>
        obtain ⟨replay, created⟩ := answer
        obtain rfl : replay = true := hanswer _ hout
        rfl

theorem lockedProgress_of_over {row : ScanTask χ ρ} {stored : DatedRow χ ρ} (hover : stored.Over)
    (engine : EngineId) (body : ProgressSubmission FindingPayload χ) :
    (lockedProgress row stored.db engine body).1 = stored.db := by
  rcases lockedProgress_cases row stored.db engine body with ⟨hstored, _⟩ | ⟨hsame, _⟩
  · exact absurd hstored.leased (TaskRecord.not_leased_of_terminal hover)
  · exact hsame

theorem step_ending (hover : s.row.Over) {a : LifeAction χ ρ} (ha : s.Spares a)
    (h : s.step a = some s') : s'.row.ending = s.row.ending := by
  have hlive := TaskRecord.not_leased_of_terminal hover
  have hterm : s.row.db.task.status.Terminal = true := hover
  cases a with
  | lease engine =>
      obtain ⟨db, hclaim, -⟩ := Option.map_eq_some_iff.1 h
      unfold claimTask at hclaim
      split_ifs at hclaim with hqueued
      rw [hqueued] at hterm
      cases hterm
  | leaseFails lease read failure now => exact absurd hover ha
  | discard lease read =>
      obtain ⟨loaded, _, hcommit⟩ := Option.bind_eq_some_iff.1 h
      split_ifs at hcommit
      obtain rfl := Option.some.inj hcommit
      rfl
  | progress read engine body =>
      obtain ⟨loaded, _, hcommit⟩ := Option.bind_eq_some_iff.1 h
      cases hrefusal : progressRefusal loaded.db.task engine body with
      | some _ =>
          rw [hrefusal] at hcommit
          cases hcommit
      | none =>
          rw [hrefusal, lockedProgress_of_over hover] at hcommit
          obtain rfl := Option.some.inj hcommit
          rfl
  | results read engine body now =>
      obtain ⟨loaded, _, hcommit⟩ := Option.bind_eq_some_iff.1 h
      cases hrefusal : resultsRefusal loaded.db engine body with
      | some _ =>
          rw [hrefusal] at hcommit
          cases hcommit
      | none =>
          rw [hrefusal, lockedResults_of_over hover] at hcommit
          obtain rfl := Option.some.inj hcommit
          rfl
  | renew =>
      obtain rfl := Option.some.inj h
      unfold renewLease
      rw [if_neg hlive]
      rfl
  | reclaim =>
      obtain rfl := Option.some.inj h
      unfold reclaimExpiredLease
      rw [if_neg hlive]
      rfl
  | redispatch | otherReport counts version =>
      obtain rfl := Option.some.inj h
      rfl
  | cancel now =>
      obtain rfl := Option.some.inj h
      change (s.row.cancelled now).ending = s.row.ending
      unfold DatedRow.cancelled cancelTask
      rw [if_pos hterm, if_pos hterm]

theorem leaseFailed_ending {loaded stored : DatedRow χ ρ} (failure : LeaseFailure) {now : ℕ}
    (hloaded : loaded.finishedAt ≠ some now) (hstored : stored.finishedAt ≠ some now) :
    (loaded.leaseFailed stored failure now).ending ≠ stored.ending := by
  intro hending
  have hdate := congrArg Ending.finishedAt hending
  change Column.writeBack loaded.finishedAt (some now) stored.finishedAt = _ at hdate
  rw [Column.writeBack_dirty hloaded.symm] at hdate
  exact hstored hdate.symm

/-- In every run from a task that is over whose steps write no lease failure over it, its
status, engine, result key and end never change. -/
theorem terminal_status_is_absorbing (hover : s.row.Over)
    (h : Machine.Reachable step Spares (· = s) s') : s'.row.ending = s.row.ending := by
  induction h with
  | start hs => rw [hs]
  | step _ ha hstep ih =>
      have hover' : Ending.status _ = _ := congrArg Ending.status ih
      refine (step_ending ?_ ha hstep).trans ih
      exact (congrArg ScanTaskStatus.Terminal hover').trans hover

/-- A task cancelled under its engine, whose results then come too late. -/
theorem terminal_status_is_absorbing_when_cancelled : ∃ s s' : TaskLife ℕ Unit,
    s.row.ending = ⟨.cancelled, some 1, none, some 5⟩ ∧ s'.versions.length = 5 ∧
      s'.row.ending = s.row.ending := by
  have hrun : (Machine.run step Spares (start {} 0 .fetch : TaskLife ℕ Unit)
      [.lease 1, .cancel 5]).any fun s =>
        decide (s.row.ending = ⟨.cancelled, some 1, none, some 5⟩ ∧ s.row.Over) &&
          (Machine.run step Spares s
            [.results 1 1 { idempotencyKey := ⟨0, 1⟩, status := .completed } 9,
              .redispatch]).any fun s' => s'.versions.length = 5 := by
    decide
  obtain ⟨s, -, h⟩ := (Option.any_eq_true _ _).1 hrun
  obtain ⟨hnow, hlater⟩ := Bool.and_eq_true_iff.1 h
  obtain ⟨hending, hover⟩ := of_decide_eq_true hnow
  obtain ⟨s', hs', hversions⟩ := (Option.any_eq_true _ _).1 hlater
  have hreach : Machine.Reachable step Spares (· = s) s := .start rfl
  exact ⟨s, s', hending, of_decide_eq_true hversions,
    terminal_status_is_absorbing hover (hreach.run hs')⟩

def IsNew (s : TaskLife χ ρ) : Prop := ∃ scan id kind, s = start scan id kind

/-- The scan is cancelled between the claim of a lease and its failure. -/
theorem terminal_status_is_overwritten : ∃ (s s' : TaskLife ℕ Unit) (a : LifeAction ℕ Unit),
    Machine.Reachable step (fun _ _ => True) IsNew s ∧ s.row.Over ∧ s.step a = some s' ∧
      s.row.ending = ⟨.cancelled, some 1, none, some 5⟩ ∧
      s'.row.ending = ⟨.failed, some 1, none, some 9⟩ := by
  have hrun : (Machine.run step (fun _ _ => True) (start {} 0 .fetch : TaskLife ℕ Unit)
      [.lease 1, .cancel 5]).any fun s =>
        decide (s.row.Over ∧ s.row.ending = ⟨.cancelled, some 1, none, some 5⟩) &&
        (s.step (.leaseFails 0 1 .pepper 9)).any fun s' =>
          s'.row.ending = ⟨.failed, some 1, none, some 9⟩ := by
    decide
  obtain ⟨s, hs, h⟩ := (Option.any_eq_true _ _).1 hrun
  obtain ⟨hnow, hnext⟩ := Bool.and_eq_true_iff.1 h
  obtain ⟨hover, hending⟩ := of_decide_eq_true hnow
  obtain ⟨s', hstep, hending'⟩ := (Option.any_eq_true _ _).1 hnext
  have hreach : Machine.Reachable step (fun _ _ => True) IsNew
      (start {} 0 .fetch : TaskLife ℕ Unit) := .start ⟨{}, 0, .fetch, rfl⟩
  exact ⟨s, s', _, hreach.run hs, hover, hstep, hending, of_decide_eq_true hending'⟩

end TaskLife

end IcebergSST
