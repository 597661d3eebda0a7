import IcebergSST.Gate

/-!
# One finalization, one result

One scan with its tasks, as any number of replicas serve engines, cancel, sweep and
finalize. A lease is two statements, the claim of the task and the commit, with the read
of the scan's status in between; the row of the task stays locked, and so it does for any
other writer of it. Whoever finds every task over may try to set the final status; the
one whose conditional update matches holds the row of the scan until it commits or is
rolled back.

How the scan left the active statuses, with the work done in that transaction, and which
tasks had results ingested is history.
-/

namespace IcebergSST

variable {χ ρ : Type}

/-- What finalization does once the coverage is complete. -/
inductive ScanWork
  | reconciliation
  | cursors
  | announcements
  deriving DecidableEq

inductive PassStage
  | updated
  /-- The manifest is frozen and complete. -/
  | complete
  | reconciled
  | advanced
  | settled
  deriving DecidableEq

/-- The transaction that has set the final status, with its work so far. -/
structure FinalizePass where
  statuses : List ScanTaskStatus
  stage : PassStage := .updated
  work : List ScanWork := []
  deriving DecidableEq

structure Departed where
  status : ScanStatus
  work : List ScanWork := []
  deriving DecidableEq

/-- A lease between its claim and its commit, with the status of the scan as it read it. -/
structure LeaseClaim where
  engine : EngineId
  seen : ScanStatus

structure ScanLife (χ ρ : Type) where
  mode : ScanMode
  status : ScanStatus := .queued
  tasks : List (TaskRecord FindingPayload χ ρ)
  /-- Which lease holds the row of a task. -/
  claims : ℕ → Option LeaseClaim := fun _ => none
  /-- What callers of `finalize_scan_if_done` have read. -/
  reads : List (List ScanTaskStatus) := []
  finalizing : Option FinalizePass := none
  departures : List Departed := []
  ingested : List ℕ := []

inductive ScanLifeAction (χ ρ : Type)
  | claim (j : ℕ) (engine : EngineId)
  | commitClaim (j : ℕ)
  | abortClaim (j : ℕ)
  | task (j : ℕ) (a : RecordAction FindingPayload χ ρ)
  | cancel
  | read
  | update (k : ℕ)
  | manifest
  | reconcile
  | commitCursors
  | announce
  | commit
  | rollback

namespace RecordAction

/-- Leases and cancellation are not steps of one transaction on one task. -/
def Single : RecordAction FindingPayload χ ρ → Bool
  | .lease _ | .cancel => false
  | _ => true

end RecordAction

namespace ScanLife

def start (mode : ScanMode) (scan : Scan) : ScanLife χ ρ where
  mode
  tasks := [.start scan 0 .discovery]

def setClaim (w : ScanLife χ ρ) (j : ℕ) (claim : Option LeaseClaim) : ScanLife χ ρ :=
  { w with claims := Function.update w.claims j claim }

theorem setClaim_self (w : ScanLife χ ρ) (j : ℕ) (claim : Option LeaseClaim) :
    (w.setClaim j claim).claims j = claim := by
  unfold setClaim
  exact Function.update_self j claim w.claims

theorem mem_setClaim {w : ScanLife χ ρ} {j j' : ℕ} {claim : Option LeaseClaim} {c : LeaseClaim}
    (h : c ∈ (w.setClaim j claim).claims j') :
    (j' = j ∧ c ∈ claim) ∨ (j' ≠ j ∧ c ∈ w.claims j') := by
  change c ∈ Function.update w.claims j claim j' at h
  by_cases hj : j' = j
  · subst hj
    rw [Function.update_self] at h
    exact Or.inl ⟨rfl, h⟩
  · rw [Function.update_of_ne hj] at h
    exact Or.inr ⟨hj, h⟩

/-- The status a lease writes: it only sets going a scan that it saw queued. -/
def statusAfter (w : ScanLife χ ρ) (claim : LeaseClaim)
    (record : TaskRecord FindingPayload χ ρ) : ScanStatus :=
  if claim.seen = .queued then
    if record.db.task.kind = .discovery then .discovering else .running
  else w.status

def createFetchTasks (w : ScanLife χ ρ) (scan : Scan) (specs : List TaskSpec) : ScanLife χ ρ :=
  if specs ≠ [] ∧ w.status.Active then
    { w with
      status := .running
      tasks := w.tasks ++ specs.mapIdx fun k _ => .start scan (w.tasks.length + k) .fetch }
  else w

def accept (w : ScanLife χ ρ) (j : ℕ) (record : TaskRecord FindingPayload χ ρ)
    (specs : List TaskSpec) : ScanLife χ ρ :=
  let ingested := { w with ingested := w.ingested ++ [j] }
  if record.db.task.kind = .discovery then ingested.createFetchTasks record.db.scan specs
  else ingested

def takeTask (w : ScanLife χ ρ) (j : ℕ) (record record' : TaskRecord FindingPayload χ ρ)
    (a : RecordAction FindingPayload χ ρ) : ScanLife χ ρ :=
  let moved := { w with tasks := w.tasks.set j record' }
  match a with
  | .results .. =>
      match a.accepted record with
      | some (_, specs) => moved.accept j record' specs
      | none => moved
  | _ => moved

def cancelled (w : ScanLife χ ρ) : ScanLife χ ρ :=
  let tasks := w.tasks.map fun record => record.commit (cancelTask record.db)
  if w.status.Active then
    { w with tasks, status := .cancelled, departures := w.departures ++ [{ status := .cancelled }] }
  else { w with tasks }

def statuses (w : ScanLife χ ρ) : List ScanTaskStatus := w.tasks.map (·.db.task.status)

def advance (w : ScanLife χ ρ) (pass : FinalizePass) (stage : PassStage) (work : List ScanWork) :
    ScanLife χ ρ :=
  { w with finalizing := some { pass with stage, work := pass.work ++ work } }

def departed (w : ScanLife χ ρ) (pass : FinalizePass) : ScanLife χ ρ :=
  { w with
    status := finalStatus pass.statuses
    finalizing := none
    departures := w.departures ++ [{ status := finalStatus pass.statuses, work := pass.work }] }

def passStep (w : ScanLife χ ρ) (pass : FinalizePass) :
    ScanLifeAction χ ρ → Option (ScanLife χ ρ)
  | .manifest =>
      if pass.stage = .updated then
        let final := finalStatus pass.statuses
        some (w.advance pass
          (if final = .completed ∧
              (buildManifest final (w.tasks.map (·.db.task))).coverageState = .complete then
            .complete else .settled) [])
      else none
  | .reconcile =>
      if pass.stage = .complete then
        some (w.advance pass .reconciled (if w.mode = .full then [.reconciliation] else []))
      else none
  | .commitCursors =>
      if pass.stage = .reconciled then some (w.advance pass .advanced [.cursors]) else none
  | .announce =>
      if pass.stage = .advanced then some (w.advance pass .settled [.announcements]) else none
  | .commit => if pass.stage = .settled then some (w.departed pass) else none
  | .rollback => some { w with finalizing := none }
  | _ => none

def step (w : ScanLife χ ρ) : ScanLifeAction χ ρ → Option (ScanLife χ ρ)
  | .claim j engine =>
      w.tasks[j]?.bind fun record =>
        if w.claims j = none ∧ record.db.task.status = .queued then
          some (w.setClaim j (some { engine, seen := w.status }))
        else none
  | .commitClaim j =>
      (w.claims j).bind fun claim =>
        w.tasks[j]?.bind fun record =>
          -- the commit waits for the row of the scan if it has a status to write
          if claim.seen = .queued ∧ w.finalizing.isSome then none
          else
            (record.step (.lease claim.engine)).map fun record' =>
              { w.setClaim j none with
                tasks := w.tasks.set j record'
                status := w.statusAfter claim record }
  | .abortClaim j => some (w.setClaim j none)
  | .task j a =>
      w.tasks[j]?.bind fun record =>
        if a.Single ∧ w.claims j = none ∧ ¬ (a.LocksScan ∧ w.finalizing.isSome) then
          (record.step a).map fun record' => w.takeTask j record record' a
        else none
  | .cancel =>
      if w.finalizing.isSome ∨ ∃ j ∈ List.range w.tasks.length, (w.claims j).isSome then none
      else some w.cancelled
  | .read =>
      if w.tasks ≠ [] ∧ w.statuses.all (·.Terminal) then
        some { w with reads := w.reads ++ [w.statuses] }
      else none
  | .update k =>
      w.reads[k]?.bind fun statuses =>
        if w.status.Active ∧ w.finalizing = none then
          some { w with finalizing := some { statuses } }
        else none
  | a => w.finalizing.bind fun pass => w.passStep pass a

def IsNew (w : ScanLife χ ρ) : Prop := ∃ mode scan, w = start mode scan

end ScanLife

namespace TaskRecord

variable {κ : Type} {w w' : TaskRecord κ χ ρ}

theorem step_resultKey {a : RecordAction κ χ ρ} (h : w.step a = some w')
    (hkey : w.db.task.resultKey ≠ none) : w'.db.task.resultKey ≠ none := by
  cases a with
  | lease engine =>
      obtain ⟨db, hclaim, rfl⟩ := Option.map_eq_some_iff.1 h
      obtain ⟨-, hput⟩ := Option.ite_none_right_eq_some.1 hclaim
      obtain rfl := Option.some.inj hput
      exact hkey
  | leaseFails read failure | discard read =>
      obtain ⟨seen, -, hrow⟩ := Option.bind_eq_some_iff.1 h
      obtain ⟨-, hput⟩ := Option.ite_none_right_eq_some.1 hrow
      obtain rfl := Option.some.inj hput
      exact hkey
  | progress read engine body =>
      obtain ⟨seen, -, -, rfl⟩ := step_progress h
      rw [takeProgress_db]
      rcases lockedProgress_cases seen.task w.db engine body with ⟨hstored, -⟩ | ⟨hsame, -⟩
      · exact absurd hstored.unreported hkey
      · rw [hsame]
        exact hkey
  | results read engine body =>
      obtain ⟨seen, -, -, rfl⟩ := step_results h
      change (lockedResults seen.task w.db engine body).1.task.resultKey ≠ none
      rcases lockedResults_cases seen.task w.db engine body with ⟨hstored, -⟩ | ⟨hsame, -⟩
      · exact absurd hstored.unreported hkey
      · rw [hsame]
        exact hkey
  | renew =>
      obtain rfl := Option.some.inj h
      change (renewLease w.db).task.resultKey ≠ none
      unfold renewLease
      split_ifs <;> exact hkey
  | reclaim =>
      obtain rfl := Option.some.inj h
      change (reclaimExpiredLease w.db).task.resultKey ≠ none
      unfold reclaimExpiredLease
      split_ifs <;> exact hkey
  | cancel =>
      obtain rfl := Option.some.inj h
      change (cancelTask w.db).task.resultKey ≠ none
      unfold cancelTask
      split_ifs <;> exact hkey
  | otherReport counts version =>
      obtain rfl := Option.some.inj h
      exact hkey

theorem step_accepted {read : ℕ} {engine : EngineId} {body : ResultsSubmission κ ρ}
    (h : w.step (.results read engine body) = some w')
    (haccepted : RecordAction.accepted w (.results read engine body) ≠ none) :
    w.db.task.resultKey = none ∧ w'.db.task.resultKey ≠ none := by
  obtain ⟨seen, hread, -, rfl⟩ := step_results h
  change _ ∧ (lockedResults seen.task w.db engine body).1.task.resultKey ≠ none
  rcases lockedResults_cases seen.task w.db engine body with ⟨hstored, -⟩ | ⟨-, hanswer⟩
  · refine ⟨hstored.unreported, ?_⟩
    rw [hstored.task.2.1]
    exact Option.some_ne_none _
  · exfalso
    apply haccepted
    simp only [RecordAction.accepted, hread, Option.bind_some]
    cases hout : (lockedResults seen.task w.db engine body).2 with
    | error _ => rfl
    | ok answer =>
        obtain ⟨replay, created⟩ := answer
        obtain rfl : replay = true := hanswer _ hout
        rfl

end TaskRecord

/-- What may have been done by then, in this order. -/
def PassStage.work : PassStage → List ScanWork
  | .updated | .complete => []
  | .reconciled => [.reconciliation]
  | .advanced => [.reconciliation, .cursors]
  | .settled => [.reconciliation, .cursors, .announcements]

structure FinalizePass.Proper (pass : FinalizePass) : Prop where
  ordered : pass.work.Sublist pass.stage.work
  completed : pass.stage ∈ [.complete, .reconciled, .advanced] ∨ pass.work ≠ [] →
    finalStatus pass.statuses = .completed

/-- Nothing is done twice, and nothing but for a completed scan. -/
structure Departed.Proper (d : Departed) : Prop where
  once : d.work.Nodup
  completed : d.work ≠ [] → d.status = .completed

namespace ScanLife

def AllOver (w : ScanLife χ ρ) : Prop := ∀ record ∈ w.tasks, record.db.task.status.Terminal

/-- While the scan is active it has not departed; afterwards it has, once, to the status
it still has. A final status was only read or set when every task was over, and a task
that a lease holds is not. -/
structure Sound (w : ScanLife χ ρ) : Prop where
  active : w.status.Active → w.departures = []
  ended : w.status.Active = false → w.AllOver ∧
    ∃ d, w.departures = [d] ∧ d.status = w.status ∧ d.Proper
  reads : w.reads ≠ [] → w.AllOver
  finalizing : ∀ pass ∈ w.finalizing, w.status.Active ∧ w.AllOver ∧ pass.Proper
  claims : ∀ j, ∀ claim ∈ w.claims j, ∃ record, w.tasks[j]? = some record ∧
    record.db.task.status = .queued
  ingested : ∀ j ∈ w.ingested, ∃ record, w.tasks[j]? = some record ∧
    record.db.task.resultKey ≠ none
  once : w.ingested.Nodup

variable {w w' : ScanLife χ ρ} {j : ℕ} {record record' : TaskRecord FindingPayload χ ρ}

theorem IsNew.sound (hw : w.IsNew) : w.Sound := by
  obtain ⟨mode, scan, rfl⟩ := hw
  constructor
  · exact fun _ => rfl
  · intro hover
    cases hover
  · exact fun hread => absurd rfl hread
  · intro pass hpass
    cases hpass
  · intro j claim hclaim
    cases hclaim
  · intro j hj
    cases hj
  · exact List.nodup_nil

theorem Sound.live (hs : w.Sound) (hlive : ¬ w.AllOver) :
    w.status.Active ∧ w.reads = [] ∧ w.finalizing = none := by
  refine ⟨?_, ?_, ?_⟩
  · by_contra hover
    exact hlive (hs.ended (Bool.eq_false_iff.2 hover)).1
  · by_contra hread
    exact hlive (hs.reads hread)
  · apply Option.eq_none_iff_forall_not_mem.2
    intro pass hpass
    exact hlive (hs.finalizing pass hpass).2.1

theorem not_allOver (hrecord : w.tasks[j]? = some record)
    (hlive : ¬ record.db.task.status.Terminal) : ¬ w.AllOver :=
  fun hall => hlive (hall record (List.mem_of_getElem? hrecord))

theorem sound_of_quiet (hactive : w.status.Active) (hdepartures : w.departures = [])
    (hreads : w.reads = []) (hnone : w.finalizing = none)
    (hclaims : ∀ j, ∀ claim ∈ w.claims j, ∃ record, w.tasks[j]? = some record ∧
      record.db.task.status = .queued)
    (hingested : ∀ j ∈ w.ingested, ∃ record, w.tasks[j]? = some record ∧
      record.db.task.resultKey ≠ none)
    (honce : w.ingested.Nodup) : w.Sound := by
  refine ⟨fun _ => hdepartures, ?_, ?_, ?_, hclaims, hingested, honce⟩
  · intro hover
    rw [hactive] at hover
    cases hover
  · exact fun hread => absurd hreads hread
  · intro pass hpass
    rw [hnone] at hpass
    cases hpass

theorem Sound.set_claims (hs : w.Sound) (hfree : w.claims j = none) :
    ∀ j', ∀ claim ∈ w.claims j', ∃ old, (w.tasks.set j record')[j']? = some old ∧
      old.db.task.status = .queued := by
  intro j' claim hclaim
  have hne : j ≠ j' := by
    rintro rfl
    rw [hfree] at hclaim
    cases hclaim
  rw [List.getElem?_set_ne hne]
  exact hs.claims j' claim hclaim

theorem Sound.set_ingested (hs : w.Sound) (hrecord : w.tasks[j]? = some record)
    (hkey : record.db.task.resultKey ≠ none → record'.db.task.resultKey ≠ none) :
    ∀ j' ∈ w.ingested, ∃ old, (w.tasks.set j record')[j']? = some old ∧
      old.db.task.resultKey ≠ none := by
  intro j' hj'
  obtain ⟨old, hold, holdkey⟩ := hs.ingested j' hj'
  by_cases hj : j = j'
  · subst hj
    obtain rfl := Option.some.inj (hold.symm.trans hrecord)
    have hlt : j < w.tasks.length := (List.getElem?_eq_some_iff.1 hrecord).1
    exact ⟨record', by rw [List.getElem?_set_self hlt], hkey holdkey⟩
  · rw [List.getElem?_set_ne hj]
    exact ⟨old, hold, holdkey⟩

theorem AllOver.set (hall : w.AllOver) (hover : record'.db.task.status.Terminal) :
    AllOver { w with tasks := w.tasks.set j record' } := by
  intro old hold
  rcases List.mem_or_eq_of_mem_set hold with hmem | rfl
  · exact hall old hmem
  · exact hover

theorem Sound.setTask (hs : w.Sound) (hrecord : w.tasks[j]? = some record)
    (hfree : w.claims j = none) {a : RecordAction FindingPayload χ ρ}
    (hstep : record.step a = some record') :
    Sound { w with tasks := w.tasks.set j record' } := by
  have hover : w.AllOver → AllOver { w with tasks := w.tasks.set j record' } := fun hall =>
    hall.set (TaskRecord.step_over (hall record (List.mem_of_getElem? hrecord)) hstep).terminal
  refine ⟨hs.active, ?_, fun hread => hover (hs.reads hread), ?_, hs.set_claims hfree,
    hs.set_ingested hrecord (TaskRecord.step_resultKey hstep), hs.once⟩
  · intro hdone
    obtain ⟨hall, hdeparted⟩ := hs.ended hdone
    exact ⟨hover hall, hdeparted⟩
  · intro pass hpass
    obtain ⟨hactive, hall, hproper⟩ := hs.finalizing pass hpass
    exact ⟨hactive, hover hall, hproper⟩

/-- The specs of an accepted discovery become tasks of a scan that is still active. -/
theorem Sound.createFetchTasks (hs : w.Sound) (hreads : w.reads = [])
    (hnone : w.finalizing = none) (scan : Scan) (specs : List TaskSpec) :
    (w.createFetchTasks scan specs).Sound := by
  unfold ScanLife.createFetchTasks
  by_cases hfan : specs ≠ [] ∧ w.status.Active
  · rw [if_pos hfan]
    have hkeep : ∀ {j : ℕ} {record : TaskRecord FindingPayload χ ρ}, w.tasks[j]? = some record →
        (w.tasks ++ specs.mapIdx fun k _ =>
          TaskRecord.start scan (w.tasks.length + k) .fetch)[j]? = some record := by
      intro j record h
      rw [List.getElem?_append_left (List.getElem?_eq_some_iff.1 h).1]
      exact h
    apply sound_of_quiet
    · rfl
    · exact hs.active hfan.2
    · exact hreads
    · exact hnone
    · intro j claim hclaim
      obtain ⟨record, hrecord, hqueued⟩ := hs.claims j claim hclaim
      exact ⟨record, hkeep hrecord, hqueued⟩
    · intro j hj
      obtain ⟨record, hrecord, hkey⟩ := hs.ingested j hj
      exact ⟨record, hkeep hrecord, hkey⟩
    · exact hs.once
  · rw [if_neg hfan]
    exact hs

theorem Sound.takeTask (hs : w.Sound) (hrecord : w.tasks[j]? = some record)
    (hfree : w.claims j = none) {a : RecordAction FindingPayload χ ρ}
    (hstep : record.step a = some record') : (w.takeTask j record record' a).Sound := by
  have hset := hs.setTask hrecord hfree hstep
  cases a with
  | results read engine body =>
      unfold ScanLife.takeTask
      cases haccepted : RecordAction.accepted record (.results read engine body) with
      | none => exact hset
      | some work =>
          obtain ⟨findings, specs⟩ := work
          have hsome : RecordAction.accepted record (.results read engine body) ≠ none := by
            rw [haccepted]
            exact Option.some_ne_none _
          have hlive : ¬ record.db.task.status.Terminal := fun hterm =>
            hsome (TaskRecord.accepted_eq_none hterm _)
          obtain ⟨hnokey, hkey⟩ := TaskRecord.step_accepted hstep hsome
          obtain ⟨hactive, hreads, hnone⟩ := hs.live (not_allOver hrecord hlive)
          have hingested : Sound { w with
              tasks := w.tasks.set j record'
              ingested := w.ingested ++ [j] } := by
            apply sound_of_quiet
            · exact hactive
            · exact hs.active hactive
            · exact hreads
            · exact hnone
            · exact hset.claims
            · intro j' hj'
              rcases List.mem_append.1 hj' with hj' | hj'
              · exact hset.ingested j' hj'
              · obtain rfl := List.mem_singleton.1 hj'
                have hlt : j' < w.tasks.length := (List.getElem?_eq_some_iff.1 hrecord).1
                exact ⟨record', List.getElem?_set_self hlt, hkey⟩
            · change (w.ingested ++ [j]).Nodup
              rw [← List.concat_eq_append]
              apply hs.once.concat
              intro hmem
              obtain ⟨old, hold, holdkey⟩ := hs.ingested j hmem
              obtain rfl := Option.some.inj (hold.symm.trans hrecord)
              exact holdkey hnokey
          change (ScanLife.accept _ j record' specs).Sound
          unfold ScanLife.accept
          dsimp only
          split_ifs
          · exact hingested.createFetchTasks hreads hnone _ specs
          · exact hingested
  | _ => exact hset

theorem Sound.claim (hs : w.Sound) {engine : EngineId} (hrecord : w.tasks[j]? = some record)
    (hqueued : record.db.task.status = .queued) (seen : ScanStatus) :
    (w.setClaim j (some { engine, seen })).Sound := by
  refine ⟨hs.active, hs.ended, hs.reads, hs.finalizing, ?_, hs.ingested, hs.once⟩
  intro j' claim hclaim
  rcases mem_setClaim hclaim with ⟨rfl, -⟩ | ⟨-, hold⟩
  · exact ⟨record, hrecord, hqueued⟩
  · exact hs.claims j' claim hold

theorem Sound.abortClaim (hs : w.Sound) (j : ℕ) : (w.setClaim j none).Sound := by
  refine ⟨hs.active, hs.ended, hs.reads, hs.finalizing, ?_, hs.ingested, hs.once⟩
  intro j' claim hclaim
  rcases mem_setClaim hclaim with ⟨-, hnone⟩ | ⟨-, hold⟩
  · cases hnone
  · exact hs.claims j' claim hold

theorem statusAfter_active {claim : LeaseClaim} (hactive : w.status.Active) :
    (w.statusAfter claim record).Active := by
  unfold ScanLife.statusAfter
  split_ifs
  · rfl
  · rfl
  · exact hactive

/-- The status a lease writes comes from before its claim: it is one of an active scan, and
while the lease held its task the scan could not end. -/
theorem Sound.commitClaim (hs : w.Sound) {claim : LeaseClaim} (hclaim : claim ∈ w.claims j)
    (hrecord : w.tasks[j]? = some record)
    (hstep : record.step (.lease claim.engine) = some record') :
    Sound { w.setClaim j none with
      tasks := w.tasks.set j record'
      status := w.statusAfter claim record } := by
  obtain ⟨held, hheld, hqueued⟩ := hs.claims j claim hclaim
  obtain rfl := Option.some.inj (hheld.symm.trans hrecord)
  obtain ⟨hactive, hreads, hnone⟩ := hs.live (not_allOver hrecord (by rw [hqueued]; decide))
  apply sound_of_quiet
  · exact statusAfter_active hactive
  · exact hs.active hactive
  · exact hreads
  · exact hnone
  · exact (hs.abortClaim j).set_claims (setClaim_self w j none)
  · exact hs.set_ingested hrecord (TaskRecord.step_resultKey hstep)
  · exact hs.once

theorem departed_cancelled : Departed.Proper { status := .cancelled } :=
  ⟨List.nodup_nil, fun hwork => absurd rfl hwork⟩

theorem Sound.cancelled (hs : w.Sound) (hnone : w.finalizing = none)
    (hfree : ∀ j ∈ List.range w.tasks.length, (w.claims j).isSome = false) :
    w.cancelled.Sound := by
  have hover : AllOver { w with
      tasks := w.tasks.map fun record => record.commit (cancelTask record.db) } := by
    intro record' hrecord'
    obtain ⟨record, -, rfl⟩ := List.mem_map.1 hrecord'
    exact ScanRun.cancelTask_terminal record.db
  have hclaims : ∀ j, ∀ claim ∈ w.claims j, ∃ record,
      (w.tasks.map fun record => record.commit (cancelTask record.db))[j]? = some record ∧
        record.db.task.status = .queued := by
    intro j claim hclaim
    obtain ⟨record, hrecord, -⟩ := hs.claims j claim hclaim
    have hlt := (List.getElem?_eq_some_iff.1 hrecord).1
    have hheld := hfree j (List.mem_range.2 hlt)
    rw [Option.mem_def.1 hclaim] at hheld
    cases hheld
  have hingested : ∀ j ∈ w.ingested, ∃ record,
      (w.tasks.map fun record => record.commit (cancelTask record.db))[j]? = some record ∧
        record.db.task.resultKey ≠ none := by
    intro j hj
    obtain ⟨record, hrecord, hkey⟩ := hs.ingested j hj
    refine ⟨record.commit (cancelTask record.db), by rw [List.getElem?_map, hrecord]; rfl, ?_⟩
    change (cancelTask record.db).task.resultKey ≠ none
    unfold cancelTask
    split_ifs <;> exact hkey
  unfold ScanLife.cancelled
  dsimp only
  by_cases hactive : w.status.Active
  · rw [if_pos hactive]
    refine ⟨?_, ?_, fun _ => hover, ?_, hclaims, hingested, hs.once⟩
    · intro hlive
      cases hlive
    · intro _
      refine ⟨hover, { status := .cancelled }, ?_, rfl, departed_cancelled⟩
      rw [hs.active hactive]
      rfl
    · intro pass hpass
      change pass ∈ w.finalizing at hpass
      rw [hnone] at hpass
      cases hpass
  · rw [if_neg hactive]
    refine ⟨hs.active, ?_, fun _ => hover, ?_, hclaims, hingested, hs.once⟩
    · exact fun hdone => ⟨hover, (hs.ended hdone).2⟩
    · intro pass hpass
      exact absurd (hs.finalizing pass hpass).1 hactive

theorem Sound.read (hs : w.Sound) (hover : w.AllOver) (statuses : List ScanTaskStatus) :
    Sound { w with reads := w.reads ++ [statuses] } :=
  ⟨hs.active, hs.ended, fun _ => hover, hs.finalizing, hs.claims, hs.ingested, hs.once⟩

theorem Sound.setPass (hs : w.Sound) {pass : FinalizePass} (hactive : w.status.Active)
    (hover : w.AllOver) (hproper : pass.Proper) : Sound { w with finalizing := some pass } := by
  refine ⟨hs.active, hs.ended, hs.reads, ?_, hs.claims, hs.ingested, hs.once⟩
  intro pass' hpass
  obtain rfl := Option.some.inj hpass
  exact ⟨hactive, hover, hproper⟩

theorem Sound.rollback (hs : w.Sound) : Sound { w with finalizing := none } := by
  refine ⟨hs.active, hs.ended, hs.reads, ?_, hs.claims, hs.ingested, hs.once⟩
  intro pass hpass
  cases hpass

theorem Sound.departed (hs : w.Sound) {pass : FinalizePass} (hpass : pass ∈ w.finalizing) :
    (w.departed pass).Sound := by
  obtain ⟨hactive, hover, hproper⟩ := hs.finalizing pass hpass
  have hdone := finalStatus_not_active pass.statuses
  have hwork : pass.stage.work.Nodup := by cases pass.stage <;> decide
  refine ⟨?_, ?_, fun _ => hover, ?_, hs.claims, hs.ingested, hs.once⟩
  · intro hlive
    exact absurd (hdone.symm.trans hlive) (by decide)
  · intro _
    refine ⟨hover, { status := finalStatus pass.statuses, work := pass.work }, ?_, rfl,
      hproper.ordered.nodup hwork, fun hsome => hproper.completed (Or.inr hsome)⟩
    change w.departures ++ _ = _
    rw [hs.active hactive]
    rfl
  · intro pass' hpass'
    cases hpass'

theorem Sound.advance (hs : w.Sound) {pass : FinalizePass} (hpass : pass ∈ w.finalizing)
    {stage : PassStage} {work : List ScanWork}
    (hordered : (pass.work ++ work).Sublist stage.work)
    (hcompleted : stage ∈ [.complete, .reconciled, .advanced] ∨ pass.work ++ work ≠ [] →
      finalStatus pass.statuses = .completed) : (w.advance pass stage work).Sound := by
  obtain ⟨hactive, hover, -⟩ := hs.finalizing pass hpass
  exact hs.setPass hactive hover ⟨hordered, hcompleted⟩

theorem Sound.passStep (hs : w.Sound) {pass : FinalizePass} (hpass : pass ∈ w.finalizing)
    {a : ScanLifeAction χ ρ} (h : w.passStep pass a = some w') : w'.Sound := by
  obtain ⟨-, -, hproper⟩ := hs.finalizing pass hpass
  have hordered := hproper.ordered
  cases a with
  | manifest =>
      obtain ⟨hstage, hput⟩ := Option.ite_none_right_eq_some.1 h
      obtain rfl := Option.some.inj hput
      rw [hstage] at hordered
      have hnothing : pass.work = [] := List.sublist_nil.1 hordered
      apply hs.advance hpass
      · rw [hnothing]
        exact List.nil_sublist _
      · rw [hnothing]
        intro hsome
        by_cases hcomplete : finalStatus pass.statuses = .completed ∧
            (buildManifest (finalStatus pass.statuses)
              (w.tasks.map (·.db.task))).coverageState = .complete
        · exact hcomplete.1
        · rw [if_neg hcomplete] at hsome
          simp at hsome
  | reconcile =>
      obtain ⟨hstage, hput⟩ := Option.ite_none_right_eq_some.1 h
      obtain rfl := Option.some.inj hput
      rw [hstage] at hordered
      have hnothing : pass.work = [] := List.sublist_nil.1 hordered
      apply hs.advance hpass
      · rw [hnothing]
        by_cases hmode : w.mode = .full
        · rw [if_pos hmode]
          exact List.Sublist.refl _
        · rw [if_neg hmode]
          exact List.nil_sublist _
      · exact fun _ => hproper.completed (Or.inl (by rw [hstage]; decide))
  | commitCursors =>
      obtain ⟨hstage, hput⟩ := Option.ite_none_right_eq_some.1 h
      obtain rfl := Option.some.inj hput
      rw [hstage] at hordered
      apply hs.advance hpass
      · exact hordered.append (List.Sublist.refl [ScanWork.cursors])
      · exact fun _ => hproper.completed (Or.inl (by rw [hstage]; decide))
  | announce =>
      obtain ⟨hstage, hput⟩ := Option.ite_none_right_eq_some.1 h
      obtain rfl := Option.some.inj hput
      rw [hstage] at hordered
      apply hs.advance hpass
      · exact hordered.append (List.Sublist.refl [ScanWork.announcements])
      · exact fun _ => hproper.completed (Or.inl (by rw [hstage]; decide))
  | commit =>
      obtain ⟨-, hput⟩ := Option.ite_none_right_eq_some.1 h
      obtain rfl := Option.some.inj hput
      exact hs.departed hpass
  | rollback =>
      obtain rfl := Option.some.inj h
      exact hs.rollback
  | _ => cases h

theorem Sound.step (hs : w.Sound) {a : ScanLifeAction χ ρ} (h : w.step a = some w') :
    w'.Sound := by
  have hpass : ∀ b, w.finalizing.bind (fun pass => w.passStep pass b) = some w' → w'.Sound := by
    intro b hb
    obtain ⟨pass, hpass, hstep⟩ := Option.bind_eq_some_iff.1 hb
    exact hs.passStep hpass hstep
  cases a with
  | claim j engine =>
      obtain ⟨record, hrecord, hrow⟩ := Option.bind_eq_some_iff.1 h
      obtain ⟨⟨-, hqueued⟩, hput⟩ := Option.ite_none_right_eq_some.1 hrow
      obtain rfl := Option.some.inj hput
      exact hs.claim hrecord hqueued _
  | commitClaim j =>
      obtain ⟨claim, hclaim, hrow⟩ := Option.bind_eq_some_iff.1 h
      obtain ⟨record, hrecord, hcommit⟩ := Option.bind_eq_some_iff.1 hrow
      obtain ⟨-, hput⟩ := Option.ite_none_left_eq_some.1 hcommit
      obtain ⟨record', hstep, rfl⟩ := Option.map_eq_some_iff.1 hput
      exact hs.commitClaim hclaim hrecord hstep
  | abortClaim j =>
      obtain rfl := Option.some.inj h
      exact hs.abortClaim j
  | task j a =>
      obtain ⟨record, hrecord, hrow⟩ := Option.bind_eq_some_iff.1 h
      obtain ⟨⟨-, hfree, -⟩, hput⟩ := Option.ite_none_right_eq_some.1 hrow
      obtain ⟨record', hstep, rfl⟩ := Option.map_eq_some_iff.1 hput
      exact hs.takeTask hrecord hfree hstep
  | cancel =>
      obtain ⟨hfree, hput⟩ := Option.ite_none_left_eq_some.1 h
      obtain rfl := Option.some.inj hput
      push Not at hfree
      apply hs.cancelled
      · exact Option.not_isSome_iff_eq_none.1 hfree.1
      · exact fun j hj => Bool.eq_false_iff.2 (hfree.2 j hj)
  | read =>
      obtain ⟨⟨-, hall⟩, hput⟩ := Option.ite_none_right_eq_some.1 h
      obtain rfl := Option.some.inj hput
      apply hs.read
      intro record hrecord
      exact List.all_eq_true.1 hall _ (List.mem_map_of_mem hrecord)
  | update k =>
      obtain ⟨statuses, hread, hrow⟩ := Option.bind_eq_some_iff.1 h
      obtain ⟨⟨hactive, -⟩, hput⟩ := Option.ite_none_right_eq_some.1 hrow
      obtain rfl := Option.some.inj hput
      have hsome : w.reads ≠ [] := List.ne_nil_of_mem (List.mem_of_getElem? hread)
      apply hs.setPass hactive (hs.reads hsome)
      exact ⟨List.nil_sublist _, by simp⟩
  | manifest | reconcile | commitCursors | announce | commit | rollback => exact hpass _ h

theorem takeTask_departures (w : ScanLife χ ρ) (j : ℕ)
    (record record' : TaskRecord FindingPayload χ ρ) (a : RecordAction FindingPayload χ ρ) :
    (w.takeTask j record record' a).departures = w.departures := by
  unfold takeTask
  cases a with
  | results read engine body =>
      dsimp only
      cases RecordAction.accepted record (.results read engine body) with
      | none => rfl
      | some work =>
          unfold accept createFetchTasks
          dsimp only
          split_ifs <;> rfl
  | _ => rfl

theorem Sound.departures_of_over (hs : w.Sound) (hover : w.status.Active = false)
    {a : ScanLifeAction χ ρ} (h : w.step a = some w') : w'.departures = w.departures := by
  have hlive : ∀ {P : Prop}, w.status.Active = true → P := fun hactive =>
    absurd (hover.symm.trans hactive) (by decide)
  have hpass : ∀ b, w.finalizing.bind (fun pass => w.passStep pass b) = some w' →
      w'.departures = w.departures := by
    intro b hb
    obtain ⟨pass, hpass, -⟩ := Option.bind_eq_some_iff.1 hb
    exact hlive (hs.finalizing pass hpass).1
  cases a with
  | claim j engine =>
      obtain ⟨record, -, hrow⟩ := Option.bind_eq_some_iff.1 h
      obtain ⟨-, hput⟩ := Option.ite_none_right_eq_some.1 hrow
      obtain rfl := Option.some.inj hput
      rfl
  | commitClaim j =>
      obtain ⟨claim, -, hrow⟩ := Option.bind_eq_some_iff.1 h
      obtain ⟨record, -, hcommit⟩ := Option.bind_eq_some_iff.1 hrow
      obtain ⟨-, hput⟩ := Option.ite_none_left_eq_some.1 hcommit
      obtain ⟨record', -, rfl⟩ := Option.map_eq_some_iff.1 hput
      rfl
  | abortClaim j =>
      obtain rfl := Option.some.inj h
      rfl
  | task j a =>
      obtain ⟨record, -, hrow⟩ := Option.bind_eq_some_iff.1 h
      obtain ⟨-, hput⟩ := Option.ite_none_right_eq_some.1 hrow
      obtain ⟨record', -, rfl⟩ := Option.map_eq_some_iff.1 hput
      rw [takeTask_departures]
  | cancel =>
      obtain ⟨-, hput⟩ := Option.ite_none_left_eq_some.1 h
      obtain rfl := Option.some.inj hput
      unfold ScanLife.cancelled
      dsimp only
      rw [if_neg (Bool.eq_false_iff.1 hover)]
  | read =>
      obtain ⟨-, hput⟩ := Option.ite_none_right_eq_some.1 h
      obtain rfl := Option.some.inj hput
      rfl
  | update k =>
      obtain ⟨statuses, -, hrow⟩ := Option.bind_eq_some_iff.1 h
      obtain ⟨⟨hactive, -⟩, -⟩ := Option.ite_none_right_eq_some.1 hrow
      exact hlive hactive
  | manifest | reconcile | commitCursors | announce | commit | rollback => exact hpass _ h

/-- A scan that is over has the one departure that made it so, before a step and after. -/
theorem Sound.final (hs : w.Sound) (hover : w.status.Active = false) {a : ScanLifeAction χ ρ}
    (h : w.step a = some w') : w'.status = w.status ∧ w'.departures = w.departures := by
  obtain ⟨-, d, hdeparted, hstatus, -⟩ := hs.ended hover
  have hs' := hs.step h
  have hkept := hs.departures_of_over hover h
  refine ⟨?_, hkept⟩
  by_cases hactive : w'.status.Active
  · rw [hs'.active hactive, hdeparted] at hkept
    cases hkept
  · obtain ⟨-, d', hdeparted', hstatus', -⟩ := hs'.ended (Bool.eq_false_iff.2 hactive)
    rw [hdeparted', hdeparted] at hkept
    obtain ⟨rfl, -⟩ := List.cons.inj hkept
    exact hstatus'.symm.trans hstatus

/-- In every run a scan leaves the active statuses at most once, to a status it then keeps;
the work of finalization is done at most once, by the transaction that completes the scan;
and no task has results ingested twice. -/
theorem one_finalization (hw : Machine.Reachable step (fun _ _ => True) IsNew w) :
    w.departures.length ≤ 1 ∧
      (∀ d ∈ w.departures, d.status = w.status ∧ w.status.Active = false ∧ d.Proper) ∧
      (∀ a w', w.step a = some w' → w.status.Active = false →
        w'.status = w.status ∧ w'.departures = w.departures) ∧
      w.ingested.Nodup := by
  have hs : w.Sound := by
    apply hw.invariant
    · intro w hnew
      exact hnew.sound
    · intro w a w' hs _ hstep
      exact hs.step hstep
  refine ⟨?_, ?_, fun a w' hstep hover => hs.final hover hstep, hs.once⟩
  · by_cases hactive : w.status.Active
    · rw [hs.active hactive]
      exact Nat.zero_le 1
    · obtain ⟨-, d, hdeparted, -, -⟩ := hs.ended (Bool.eq_false_iff.2 hactive)
      rw [hdeparted]
      exact le_rfl
  · intro d hd
    by_cases hactive : w.status.Active
    · rw [hs.active hactive] at hd
      cases hd
    · have hover := Bool.eq_false_iff.2 hactive
      obtain ⟨-, d', hdeparted, hstatus, hproper⟩ := hs.ended hover
      rw [hdeparted] at hd
      obtain rfl := List.mem_singleton.1 hd
      exact ⟨hstatus, hover, hproper⟩

/-- Two callers find the tasks over and the first is rolled back; a cancellation comes after
the second has committed. -/
def finalizedTwice : List (ScanLifeAction ℕ ℕ) :=
  [.claim 0 1, .commitClaim 0, .task 0 (.results 1 1 Deployment.discoveryReport),
    .claim 1 1, .commitClaim 1, .task 1 (.results 1 1 (Deployment.fetchReport [])),
    .read, .read, .update 0, .manifest, .reconcile, .rollback, .update 1, .manifest, .reconcile,
    .commitCursors, .announce, .commit, .task 1 (.results 2 1 (Deployment.fetchReport [])), .cancel]

theorem one_finalization_of_two_callers : ∃ w : ScanLife ℕ ℕ,
    w.departures = [⟨.completed, [.reconciliation, .cursors, .announcements]⟩] ∧
      w.ingested = [0, 1] ∧ w.departures.length ≤ 1 ∧
      (∀ d ∈ w.departures, d.status = w.status ∧ w.status.Active = false ∧ d.Proper) ∧
      (∀ a w', w.step a = some w' → w.status.Active = false →
        w'.status = w.status ∧ w'.departures = w.departures) ∧
      w.ingested.Nodup := by
  have hrun : (Machine.run step (fun _ _ => True) (start .full {}) finalizedTwice).any fun w =>
      w.departures = [⟨.completed, [.reconciliation, .cursors, .announcements]⟩] ∧
        w.ingested = [0, 1] := by
    decide
  have hreach : Machine.Reachable step (fun _ _ => True) IsNew
      (start .full {} : ScanLife ℕ ℕ) := .start ⟨_, _, rfl⟩
  obtain ⟨w, hw, hdepartures, hingested⟩ := hreach.exists_of_run hrun
  exact ⟨w, hdepartures, hingested, one_finalization hw⟩

end ScanLife

end IcebergSST
