import IcebergSST.Cursors
import IcebergSST.Lifecycle

/-!
# The scans of one source

`SourceWorld` is a source with its cursor rows, the fleet, at most one active scan and
the scans that finished. The active scan is its row and its tasks, each with at most one
engine at work. Every transaction of the API is one step: launching, leasing, taking a
batch or a report, cancelling, and the finalization that alone stores cursors.

What a task's spec covers, what an engine's pack was shown and what a scan started from
are history: no row holds them. `π` is a piece of content, and a checkpoint is the
number of pieces of the spec it lies behind.
-/

namespace IcebergSST

variable {κ P π : Type}

inductive ScanStatus
  | queued
  | discovering
  | running
  | completed
  /-- `partial`: some tasks worked, some did not. -/
  | partly
  | failed
  | cancelled
  deriving DecidableEq, Repr

/-- An engine at work on a task: the pack it has loaded, the positions its lease
carried, and how many pieces of the spec are behind what it has had accepted. -/
structure WorkAttempt (P : Type) where
  engine : EngineId
  pack : String
  positions : List (SourceCursor P) := []
  read : ℕ := 0

/-- What a fetch spec stands for: pieces of one scope, in the order they are read. -/
structure SpecContent (π : Type) where
  scope : String
  pieces : List π

structure WorkItem (P π : Type) where
  row : ScanTask ℕ (CursorProposal P)
  content : SpecContent π := ⟨"", []⟩
  attempt : Option (WorkAttempt P) := none

/-- A piece shown to a rule pack, in work the API accepted. -/
structure Inspection (π : Type) where
  scope : String
  piece : π
  pack : String
  deriving DecidableEq

structure ActiveScan (P π : Type) where
  row : SourceScan
  items : List (WorkItem P π)
  /-- The cursors its discovery was given. -/
  builtOn : List (SourceCursor P) := []
  inspected : List (Inspection π) := []

structure FinishedScan (P π : Type) where
  row : SourceScan
  status : ScanStatus
  /-- Completed, with complete coverage. -/
  complete : Bool
  finishedAt : ℕ
  builtOn : List (SourceCursor P)
  inspected : List (Inspection π)

structure SourceWorld (P π : Type) where
  clock : ℕ := 0
  source : Source
  engines : List Engine := []
  cursors : List (SourceCursor P) := []
  active : Option (ActiveScan P π) := none
  finished : List (FinishedScan P π) := []

inductive TaskAction (κ P π : Type)
  | lease (engine : EngineId) (pack : String)
  | die
  | renew
  | reclaim
  | progress (body : ProgressSubmission κ ℕ) (seen : List π)
  | results (body : ResultsSubmission κ (CursorProposal P)) (seen : List π)
      (specs : List (SpecContent π))

inductive SourceAction (κ P π : Type)
  | tick (elapsed : ℕ)
  | fleet (engines : List Engine)
  | edit
  | dropCursors
  | launch (requested : ScanMode) (pepperRotating : Bool)
  | task (i : ℕ) (a : TaskAction κ P π)
  | cancel
  | finalize

namespace ActiveScan

def db (s : ActiveScan P π) (item : WorkItem P π) : Db ℕ (CursorProposal P) :=
  ⟨s.row.toScan, item.row⟩

def put (s : ActiveScan P π) (i : ℕ) (item : WorkItem P π) : ActiveScan P π :=
  { s with items := s.items.set i item }

/-- The attempt a lease begins: a discovery is told where earlier scans got. -/
def attemptOf (s : ActiveScan P π) (cursors : List (SourceCursor P))
    (row : ScanTask ℕ (CursorProposal P)) (engine : EngineId) (pack : String) : WorkAttempt P where
  engine
  pack
  positions := if row.kind = .discovery then positionsForScan cursors s.row.mode else []
  read := row.checkpoint.getD 0

def shown (item : WorkItem P π) (a : WorkAttempt P) (seen : List π) : List (Inspection π) :=
  seen.map fun x => ⟨item.content.scope, x, a.pack⟩

def afterProgress (s : ActiveScan P π) (item : WorkItem P π) (a : WorkAttempt P)
    (body : ProgressSubmission κ ℕ) : ApiState κ ℕ (CursorProposal P) :=
  (ApiState.submitProgress { db := s.db item } a.engine
    { body with rulepackVersion := some a.pack }).1

def afterResults (s : ActiveScan P π) (item : WorkItem P π) (a : WorkAttempt P)
    (body : ResultsSubmission κ (CursorProposal P)) : ApiState κ ℕ (CursorProposal P) :=
  (ApiState.submitResults { db := s.db item } a.engine
    { body with rulepackVersion := some a.pack }).1

def fetchTasks (s : ActiveScan P π) (item : WorkItem P π) (specs : List (SpecContent π)) :
    List (WorkItem P π) :=
  if item.row.kind = .discovery then
    specs.mapIdx fun j content => { row := { id := s.items.length + j, kind := .fetch }, content }
  else []

def takeBatch (s : ActiveScan P π) (i : ℕ) (item : WorkItem P π) (a : WorkAttempt P)
    (api : ApiState κ ℕ (CursorProposal P)) (checkpoint : ℕ) (seen : List π) : ActiveScan P π :=
  { s with
    row := { s.row with toScan := api.db.scan }
    items := s.items.set i
      { item with row := api.db.task, attempt := some { a with read := checkpoint } }
    inspected := s.inspected ++ shown item a seen }

def takeResults (s : ActiveScan P π) (i : ℕ) (item : WorkItem P π) (a : WorkAttempt P)
    (api : ApiState κ ℕ (CursorProposal P)) (seen : List π) (specs : List (SpecContent π)) :
    ActiveScan P π :=
  { row := { s.row with toScan := api.db.scan }
    items := s.items.set i { item with row := api.db.task, attempt := none } ++
      s.fetchTasks item specs
    builtOn := s.builtOn ++ a.positions
    inspected := s.inspected ++ shown item a seen }

def step (s : ActiveScan P π) (cursors : List (SourceCursor P)) (i : ℕ) (item : WorkItem P π) :
    TaskAction κ P π → Option (ActiveScan P π)
  | .lease engine pack =>
      match item.attempt, claimTask (s.db item) engine with
      | none, some claimed =>
          let row := (leasedDb claimed).task
          some (s.put i { item with row, attempt := some (s.attemptOf cursors row engine pack) })
      | _, _ => none
  | .die => some (s.put i { item with attempt := none })
  | .renew => some (s.put i { item with row := (renewLease (s.db item)).task })
  | .reclaim => some (s.put i { item with row := (reclaimExpiredLease (s.db item)).task })
  | .progress body seen =>
      item.attempt.map fun a =>
        let api := s.afterProgress item a body
        -- a batch that is refused leaves everything where it was
        if api.batches.isEmpty then s else s.takeBatch i item a api body.checkpoint seen
  | .results body seen specs =>
      item.attempt.bind fun a =>
        let api := s.afterResults item a body
        if specs.length ≠ body.taskSpecs.length then none
        else if api.results.isEmpty then some s
        else some (s.takeResults i item a api seen specs)

end ActiveScan

/-- Completed if everything worked, partial if some did, failed if none did. -/
def finalStatus (statuses : List ScanTaskStatus) : ScanStatus :=
  if statuses.any (· = .cancelled) then .cancelled
  else if statuses.all (· = .completed) then .completed
  else if statuses.any (· = .completed) then .partly else .failed

/-- `coverage_state is COMPLETE`, for the tasks of a completed scan. -/
def coverageComplete (rows : List (ScanTask ℕ (CursorProposal P))) : Bool :=
  let reports : List (Option TaskCoverageReport) := rows.map storedTaskReport
  let payloads := reports.reduceOption.map TaskCoverageReport.payload
  let unreported := reports.countP Option.isNone
  (payloads.map (·.counts.skipped)).sum = 0 && (payloads.map (·.counts.failed)).sum = 0 &&
    (payloads.map (·.scope.gaps)).sum + (unreported : ℤ) = 0 && unreported = 0

namespace ActiveScan

def rows (s : ActiveScan P π) : List (ScanTask ℕ (CursorProposal P)) := s.items.map (·.row)

def Settled (s : ActiveScan P π) : Bool :=
  s.items ≠ [] && s.rows.all (·.status.Terminal)

def final (s : ActiveScan P π) : ScanStatus := finalStatus (s.rows.map (·.status))

/-- The gate for reconciling and for storing cursors. -/
def Complete (s : ActiveScan P π) : Bool := s.final = .completed && coverageComplete s.rows

def finished (s : ActiveScan P π) (status : ScanStatus) (complete : Bool) (now : ℕ) :
    FinishedScan P π where
  row := s.row
  status
  complete
  finishedAt := now
  builtOn := s.builtOn
  inspected := s.inspected

end ActiveScan

namespace SourceWorld

def plan (w : SourceWorld P π) (requested : ScanMode) (pepperRotating : Bool) :
    List (SourceCursor P) × Plan :=
  planMode w.cursors w.source requested (fleetRulepackVersion w.engines) pepperRotating w.clock

def launched (w : SourceWorld P π) (requested : ScanMode) (plan : Plan) : ActiveScan P π where
  row :=
    { id := w.finished.length
      sourceConfigurationVersion := some w.source.updatedAt
      mode := plan.mode
      promotedFrom := if plan.mode = requested then none else some requested
      promotionReason := plan.reason
      incrementalBaselineAt := plan.baseline
      startedAt := w.clock }
  items := [{ row := { id := 0, kind := .discovery } }]

/-- `finalize_and_reconcile`, as far as cursors are concerned. -/
def finalize (w : SourceWorld P π) (s : ActiveScan P π) : SourceWorld P π :=
  { w with
    cursors := if s.Complete then commitProposals w.cursors s.row s.rows w.clock else w.cursors
    active := none
    finished := w.finished ++ [s.finished s.final s.Complete w.clock] }

def step (w : SourceWorld P π) : SourceAction κ P π → Option (SourceWorld P π)
  | .tick elapsed => some { w with clock := w.clock + elapsed }
  | .fleet engines => some { w with engines }
  | .edit =>
      if w.active.isSome then none
      else some { w with source := { w.source with updatedAt := w.clock } }
  | .dropCursors => some { w with cursors := invalidate w.cursors .operatorRequested w.clock }
  | .launch requested pepperRotating =>
      let planned := w.plan requested pepperRotating
      match w.active with
      -- the insert conflicts, but what the plan retired stays retired
      | some _ => some { w with cursors := planned.1 }
      | none =>
          some { w with cursors := planned.1, active := some (w.launched requested planned.2) }
  | .task i a =>
      match w.active with
      | none => none
      | some s =>
          match s.items[i]? with
          | none => none
          | some item => (s.step w.cursors i item a).map fun s' => { w with active := some s' }
  | .cancel =>
      w.active.map fun s =>
        { w with active := none, finished := w.finished ++ [s.finished .cancelled false w.clock] }
  | .finalize =>
      match w.active with
      | none => none
      | some s => if s.Settled then some (w.finalize s) else none

inductive Reachable (guard : SourceWorld P π → SourceAction κ P π → Prop) :
    SourceWorld P π → Prop
  | start (source : Source) : Reachable guard { source }
  | step {w w' : SourceWorld P π} {a : SourceAction κ P π} : Reachable guard w → guard w a →
      w.step a = some w' → Reachable guard w'

def run (guard : SourceWorld P π → SourceAction κ P π → Prop) [∀ w a, Decidable (guard w a)]
    (w : SourceWorld P π) : List (SourceAction κ P π) → Option (SourceWorld P π)
  | [] => some w
  | a :: rest => if guard w a then (w.step a).bind fun w' => w'.run guard rest else none

theorem Reachable.run {guard : SourceWorld P π → SourceAction κ P π → Prop}
    [∀ w a, Decidable (guard w a)] {w w' : SourceWorld P π} {actions : List (SourceAction κ P π)}
    (hw : Reachable guard w) (h : w.run guard actions = some w') : Reachable guard w' := by
  induction actions generalizing w with
  | nil => exact Option.some.inj h ▸ hw
  | cons a rest ih =>
      unfold SourceWorld.run at h
      split_ifs at h with hg
      obtain ⟨w₁, hstep, hrest⟩ := Option.bind_eq_some_iff.1 h
      exact ih (hw.step hg hstep) hrest

theorem step_launch {w : SourceWorld P π} (hidle : w.active = none) (requested : ScanMode)
    (pepperRotating : Bool) :
    w.step (.launch requested pepperRotating : SourceAction κ P π) =
      some { w with
        cursors := (w.plan requested pepperRotating).1
        active := some (w.launched requested (w.plan requested pepperRotating).2) } := by
  simp only [step, hidle]

/-- Cursor rows and finished scans change in four ways: rows are retired, a scan ends
without storing anything, or a complete one stores what it proposes. -/
theorem step_cases {w w' : SourceWorld P π} {a : SourceAction κ P π} (h : w.step a = some w') :
    (w'.cursors = w.cursors ∧ w'.finished = w.finished ∧ w.clock ≤ w'.clock) ∨
    ((∃ reason, w'.cursors = invalidate w.cursors reason w.clock) ∧
      w'.finished = w.finished ∧ w'.clock = w.clock) ∨
    (∃ s status, w.active = some s ∧ w'.cursors = w.cursors ∧ w'.clock = w.clock ∧
      w'.finished = w.finished ++ [s.finished status false w.clock]) ∨
    ∃ s, w.active = some s ∧ s.Complete ∧ w' = w.finalize s := by
  cases a with
  | tick elapsed =>
      obtain rfl := Option.some.inj h
      exact Or.inl ⟨rfl, rfl, Nat.le_add_right _ _⟩
  | fleet engines =>
      obtain rfl := Option.some.inj h
      exact Or.inl ⟨rfl, rfl, le_rfl⟩
  | edit =>
      simp only [step] at h
      split_ifs at h
      obtain rfl := Option.some.inj h
      exact Or.inl ⟨rfl, rfl, le_rfl⟩
  | dropCursors =>
      obtain rfl := Option.some.inj h
      exact Or.inr (Or.inl ⟨⟨_, rfl⟩, rfl, rfl⟩)
  | launch requested pepperRotating =>
      have hplan := planMode_cursors w.cursors w.source requested (fleetRulepackVersion w.engines)
        pepperRotating w.clock
      have hrows : w'.cursors = (w.plan requested pepperRotating).1 ∧
          w'.finished = w.finished ∧ w'.clock = w.clock := by
        simp only [step] at h
        cases hs : w.active <;> rw [hs] at h <;> obtain rfl := Option.some.inj h <;>
          exact ⟨rfl, rfl, rfl⟩
      rcases hplan with hsame | ⟨reason, hretired⟩
      · exact Or.inl ⟨hrows.1.trans hsame, hrows.2.1, hrows.2.2.ge⟩
      · exact Or.inr (Or.inl ⟨⟨reason, hrows.1.trans hretired⟩, hrows.2⟩)
  | task i a =>
      simp only [step] at h
      cases hs : w.active with
      | none => rw [hs] at h; cases h
      | some s =>
          rw [hs] at h
          cases hi : s.items[i]? with
          | none => simp only [hi, reduceCtorEq] at h
          | some item =>
              simp only [hi] at h
              obtain ⟨s', -, rfl⟩ := Option.map_eq_some_iff.1 h
              exact Or.inl ⟨rfl, rfl, le_rfl⟩
  | cancel =>
      obtain ⟨s, hs, rfl⟩ := Option.map_eq_some_iff.1 h
      exact Or.inr (Or.inr (Or.inl ⟨s, .cancelled, hs, rfl, rfl, rfl⟩))
  | finalize =>
      simp only [step] at h
      cases hs : w.active with
      | none => rw [hs] at h; cases h
      | some s =>
          rw [hs] at h
          simp only at h
          split_ifs at h with hsettled
          obtain rfl := Option.some.inj h
          by_cases hc : s.Complete
          · exact Or.inr (Or.inr (Or.inr ⟨s, rfl, hc, rfl⟩))
          · refine Or.inr (Or.inr (Or.inl ⟨s, s.final, rfl, ?_, rfl, ?_⟩))
            · simp only [finalize, if_neg hc]
            · simp only [finalize, Bool.eq_false_iff.2 hc]

end SourceWorld

end IcebergSST
