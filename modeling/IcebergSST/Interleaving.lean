import IcebergSST.Library.Machine
import IcebergSST.Library.WriteBack
import IcebergSST.Trail

/-!
# Analysts and scans at one finding

`TrailState` is a finding's row with every version it has had and its events. An
analyst's change and a scan's sightings are decided on the version that was loaded and
written over the row that stands, changed columns only; reconciliation is one
conditional update. All of them commit in any order, and a commit that would break the
unique index of system events is rolled back.

The events form a legal chain exactly as long as no state is changed over a version that
has moved.
-/

namespace IcebergSST

/-- A column is written only where the change differs from what was loaded. -/
def writeColumn {α : Type} [DecidableEq α] (loaded updated current : α) : α :=
  if updated = loaded then current else updated

theorem writeColumn_eq_writeBack {α : Type} [DecidableEq α] (loaded updated current : α) :
    writeColumn loaded updated current = Column.writeBack loaded updated current := rfl

/-- The `UPDATE` that a flush emits for a changed row. -/
def FindingRecord.write (loaded updated current : FindingRecord) : FindingRecord where
  id := current.id
  fingerprint := writeColumn loaded.fingerprint updated.fingerprint current.fingerprint
  secretHash := writeColumn loaded.secretHash updated.secretHash current.secretHash
  ruleId := writeColumn loaded.ruleId updated.ruleId current.ruleId
  resourceLocator :=
    writeColumn loaded.resourceLocator updated.resourceLocator current.resourceLocator
  state := writeColumn loaded.state updated.state current.state
  resolution := writeColumn loaded.resolution updated.resolution current.resolution
  lastSeenScanId := writeColumn loaded.lastSeenScanId updated.lastSeenScanId current.lastSeenScanId
  suppressedAt := writeColumn loaded.suppressedAt updated.suppressedAt current.suppressedAt
  suppressedById := writeColumn loaded.suppressedById updated.suppressedById current.suppressedById
  assigneeId := writeColumn loaded.assigneeId updated.assigneeId current.assigneeId
  ownerGroupId := writeColumn loaded.ownerGroupId updated.ownerGroupId current.ownerGroupId
  ownerPinned := writeColumn loaded.ownerPinned updated.ownerPinned current.ownerPinned
  notes := writeColumn loaded.notes updated.notes current.notes

structure TrailState where
  row : FindingRecord
  /-- Every committed version, the present one last. -/
  versions : List FindingRecord
  events : List FindingEvent := []

/-- `read` numbers the version that the transaction loaded. -/
inductive TrailAction
  | patch (read actorId : ℕ) (changes : FindingUpdate)
      (evidenceCheck : Option (FindingRecord → Bool))
  | ingest (read scanId now : ℕ) (sightings : List (FindingPayload × Option SuppressionRule))
  | reconcile (scanId : ℕ)

namespace TrailState

/-- The unique index is checked when the events are written. -/
def commit (w : TrailState) (row : FindingRecord) (events : List FindingEvent) :
    Option TrailState :=
  if (systemKeys (w.events ++ events)).Nodup then
    some { row, versions := w.versions ++ [row], events := w.events ++ events }
  else none

/-- Refused changes and updates that match no row leave nothing to commit. -/
def step (w : TrailState) : TrailAction → Option TrailState
  | .patch read actorId changes evidenceCheck =>
      w.versions[read]?.bind fun loaded =>
        match applyTriage loaded changes actorId evidenceCheck with
        | .error _ => none
        | .ok (updated, events) => w.commit (loaded.write updated w.row) events
  | .ingest read scanId now sightings =>
      w.versions[read]?.bind fun loaded =>
        let sighted := sightAll scanId now loaded sightings
        w.commit (loaded.write sighted.1 w.row) sighted.2
  | .reconcile scanId =>
      if w.row.state = .opened then
        w.commit { w.row with state := .resolved, resolution := some .auto }
          [autoResolvedEvent scanId]
      else none

def IsNew (w : TrailState) : Prop :=
  w.row.state = .opened ∧ w.versions = [w.row] ∧ w.events = []

/-- The condition under which a change of state is decided on the state that stands. -/
def Current (w : TrailState) : TrailAction → Prop
  | .patch read _ changes _ => ∀ loaded ∈ w.versions[read]?,
      changes.movingTo loaded ≠ none → loaded.state = w.row.state
  | .ingest read _ _ sightings => ∀ loaded ∈ w.versions[read]?,
      sightings ≠ [] → loaded.state = .resolved → w.row.state = .resolved
  | .reconcile _ => True

/-- A chain of state events: each starts where the finding stood, an analyst's is a legal
move, and a scan's leaves no judgement behind. -/
def LegalFrom : FindingState → List FindingEvent → FindingState → Prop
  | s, [], t => s = t
  | s, e :: es, t => ∃ next, e.fromValue = some s.value ∧ e.toValue = some next.value ∧
      (e.actorId.isSome → next ∈ legalTransitions s) ∧
      (e.actorId = none → s ≠ .falsePositive ∧ s ≠ .acceptedRisk) ∧ LegalFrom next es t

def LegalHistory (w : TrailState) : Prop := LegalFrom .opened (stateMoves w.events) w.row.state

end TrailState

structure Moved (before after : FindingState) (e : FindingEvent) : Prop where
  fromValue : e.fromValue = some before.value
  toValue : e.toValue = some after.value
  differ : after ≠ before
  analyst : e.actorId.isSome → after ∈ legalTransitions before
  scan : e.actorId = none → before ≠ .falsePositive ∧ before ≠ .acceptedRisk

theorem moved_transition {f : FindingRecord} {target : FindingState} (actorId : ℕ)
    (comment : Option String) (hlegal : target ∈ legalTransitions f.state) :
    ∃ e, (transition target actorId comment f).2 = [e] ∧ Moved f.state target e := by
  refine ⟨_, rfl, rfl, rfl, ?_, fun _ => hlegal, fun hnone => (by cases hnone)⟩
  intro heq
  rw [heq] at hlegal
  cases hs : f.state <;> rw [hs] at hlegal <;> simp [legalTransitions] at hlegal

theorem moved_reopened (scanId : ℕ) : Moved .resolved .opened (reopenedEvent scanId) where
  fromValue := rfl
  toValue := rfl
  differ := by simp
  analyst := by simp [reopenedEvent]
  scan := by simp

theorem moved_autoResolved (scanId : ℕ) : Moved .opened .resolved (autoResolvedEvent scanId) where
  fromValue := rfl
  toValue := rfl
  differ := by simp
  analyst := by simp [autoResolvedEvent]
  scan := by simp

namespace TrailState
variable {w w' : TrailState} {a : TrailAction}

theorem commit_eq_some {row : FindingRecord} {events : List FindingEvent}
    (h : w.commit row events = some w') :
    (systemKeys w'.events).Nodup ∧ w'.row = row ∧ w'.events = w.events ++ events := by
  unfold commit at h
  split_ifs at h with hunique
  obtain rfl := Option.some.inj h
  exact ⟨hunique, rfl, rfl⟩

/-- What a step does to the state: nothing, or one move decided on the state `before`,
which is the one that stands exactly under the step's condition. -/
theorem step_cases (h : w.step a = some w') :
    (systemKeys w'.events).Nodup ∧ ∃ events, w'.events = w.events ++ events ∧
      ((stateMoves events = [] ∧ w'.row.state = w.row.state ∧ w.Current a) ∨
        ∃ before e, stateMoves events = [e] ∧ Moved before w'.row.state e ∧
          (w.Current a ↔ before = w.row.state)) := by
  cases a with
  | patch read actorId changes evidenceCheck =>
      obtain ⟨loaded, hread, hcommit⟩ := Option.bind_eq_some_iff.1 h
      cases happly : applyTriage loaded changes actorId evidenceCheck with
      | error _ =>
          rw [happly] at hcommit
          cases hcommit
      | ok t =>
          rw [happly] at hcommit
          obtain ⟨hunique, hrow, hevents⟩ := commit_eq_some hcommit
          have hcurrent : w.Current (.patch read actorId changes evidenceCheck) ↔
              (changes.movingTo loaded ≠ none → loaded.state = w.row.state) := by
            simp only [Current, hread, Option.mem_def, Option.some.injEq, forall_eq']
          refine ⟨hunique, t.2, hevents, ?_⟩
          obtain ⟨_, ⟨hstay, hstate, hmoves⟩ | ⟨target, hmove, hlegal, hstate, hmoves⟩⟩ :=
            applyTriage_ok happly
          · left
            refine ⟨hmoves, ?_, ?_⟩
            · rw [hrow]
              change writeColumn loaded.state t.1.state w.row.state = w.row.state
              rw [hstate, writeColumn_eq_writeBack, Column.writeBack_clean]
            · rw [hcurrent]
              exact fun hmoving => absurd hstay hmoving
          · right
            obtain ⟨e, he, hmoved⟩ := moved_transition actorId changes.comment hlegal
            refine ⟨loaded.state, e, hmoves.trans he, ?_, ?_⟩
            · have hwritten : w'.row.state = target := by
                rw [hrow]
                change writeColumn loaded.state t.1.state w.row.state = target
                rw [hstate, writeColumn_eq_writeBack, Column.writeBack_dirty hmoved.differ]
              rwa [hwritten]
            · rw [hcurrent, hmove]
              simp
  | ingest read scanId now sightings =>
      obtain ⟨loaded, hread, hcommit⟩ := Option.bind_eq_some_iff.1 h
      obtain ⟨hunique, hrow, hevents⟩ := commit_eq_some hcommit
      obtain ⟨hstate, hmoves, _⟩ := sightAll_spec scanId now loaded sightings
      have hcurrent : w.Current (.ingest read scanId now sightings) ↔
          (sightings ≠ [] → loaded.state = .resolved → w.row.state = .resolved) := by
        simp only [Current, hread, Option.mem_def, Option.some.injEq, forall_eq']
      have hwritten : w'.row.state =
          writeColumn loaded.state (sightAll scanId now loaded sightings).1.state w.row.state := by
        rw [hrow]
        rfl
      refine ⟨hunique, _, hevents, ?_⟩
      rw [hmoves, hwritten, hstate, reopenings]
      by_cases hreopens : sightings ≠ [] ∧ loaded.state = .resolved
      · right
        rw [if_pos hreopens, if_pos hreopens, hreopens.2]
        refine ⟨.resolved, _, rfl, moved_reopened scanId, ?_⟩
        rw [hcurrent]
        exact ⟨fun hc => (hc hreopens.1 hreopens.2).symm, fun hc _ _ => hc.symm⟩
      · left
        rw [if_neg hreopens, if_neg hreopens]
        refine ⟨rfl, ?_, ?_⟩
        · rw [writeColumn_eq_writeBack, Column.writeBack_clean]
        rw [hcurrent]
        exact fun hsome hresolved => absurd ⟨hsome, hresolved⟩ hreopens
  | reconcile scanId =>
      simp only [step] at h
      split_ifs at h with hopen
      obtain ⟨hunique, hrow, hevents⟩ := commit_eq_some h
      refine ⟨hunique, _, hevents, Or.inr ⟨.opened, _, rfl, ?_, ?_⟩⟩
      · rw [hrow]
        exact moved_autoResolved scanId
      · simp [Current, hopen]

theorem legalFrom_append {s t : FindingState} {es es' : List FindingEvent} :
    LegalFrom s (es ++ es') t ↔ ∃ m, LegalFrom s es m ∧ LegalFrom m es' t := by
  induction es generalizing s with
  | nil => simp [LegalFrom]
  | cons e es ih =>
      constructor
      · rintro ⟨next, hfrom, hto, hanalyst, hscan, hrest⟩
        obtain ⟨m, hm, hrest⟩ := ih.1 hrest
        exact ⟨m, ⟨next, hfrom, hto, hanalyst, hscan, hm⟩, hrest⟩
      · rintro ⟨m, ⟨next, hfrom, hto, hanalyst, hscan, hm⟩, hrest⟩
        exact ⟨next, hfrom, hto, hanalyst, hscan, ih.2 ⟨m, hm, hrest⟩⟩

theorem LegalFrom.unique {s t t' : FindingState} {es : List FindingEvent} (h : LegalFrom s es t)
    (h' : LegalFrom s es t') : t = t' := by
  induction es generalizing s with
  | nil => exact h.symm.trans h'
  | cons e es ih =>
      obtain ⟨next, _, hto, _, _, hrest⟩ := h
      obtain ⟨next', _, hto', _, _, hrest'⟩ := h'
      obtain rfl : next = next' :=
        FindingState.value_injective (Option.some.inj (hto.symm.trans hto'))
      exact ih hrest hrest'

theorem legalFrom_singleton {s before after : FindingState} {e : FindingEvent}
    (hmoved : Moved before after e) : LegalFrom s [e] after ↔ before = s := by
  constructor
  · rintro ⟨next, hfrom, _⟩
    exact FindingState.value_injective (Option.some.inj (hmoved.fromValue.symm.trans hfrom))
  · rintro rfl
    exact ⟨after, hmoved.fromValue, hmoved.toValue, hmoved.analyst, hmoved.scan, rfl⟩

/-- A step keeps the history legal exactly when it meets the condition. -/
theorem LegalHistory.step_iff (h : w.LegalHistory) (hstep : w.step a = some w') :
    w'.LegalHistory ↔ w.Current a := by
  obtain ⟨_, events, hevents, hcases⟩ := step_cases hstep
  unfold LegalHistory at h ⊢
  rw [hevents, stateMoves_append, legalFrom_append]
  rcases hcases with ⟨hmoves, hstate, hcurrent⟩ | ⟨before, e, hmoves, hmoved, hcurrent⟩
  · rw [hmoves, hstate]
    exact ⟨fun _ => hcurrent, fun _ => ⟨w.row.state, h, rfl⟩⟩
  · rw [hmoves, hcurrent]
    constructor
    · rintro ⟨m, hm, hlast⟩
      rw [h.unique hm]
      exact (legalFrom_singleton hmoved).1 hlast
    · intro hbefore
      exact ⟨w.row.state, h, (legalFrom_singleton hmoved).2 hbefore⟩

theorem legalHistory_of_reachable (hw : Machine.Reachable step Current IsNew w) :
    w.LegalHistory := by
  apply hw.invariant
  · rintro w ⟨hopen, _, hevents⟩
    unfold LegalHistory
    rw [hevents, hopen]
    rfl
  · intro w a w' h ha hstep
    exact (h.step_iff hstep).2 ha

/-- In every run whose changes of state are decided on the state that stands, the events
form a legal chain up to the finding's state; and a step from there keeps it one if and
only if it meets that condition too. -/
theorem history_is_legal (hw : Machine.Reachable step Current IsNew w) :
    w.LegalHistory ∧ ∀ a w', w.step a = some w' → (w'.LegalHistory ↔ w.Current a) := by
  have h := legalHistory_of_reachable hw
  exact ⟨h, fun a w' hstep => h.step_iff hstep⟩

/-! Runs over one finding: scan 2 does not see it and resolves it, scan 3 sees it again. -/

instance (w : TrailState) (a : TrailAction) : Decidable (w.Current a) :=
  match a with
  | .patch read _ _ _ => inferInstanceAs (Decidable (∀ loaded ∈ w.versions[read]?, _))
  | .ingest read _ _ _ => inferInstanceAs (Decidable (∀ loaded ∈ w.versions[read]?, _))
  | .reconcile _ => .isTrue trivial

def leakedKey : FindingRecord where
  id := 1
  fingerprint := "f1"
  secretHash := "h1"
  ruleId := "aws-key"
  lastSeenScanId := 1

def newTrail : TrailState := { row := leakedKey, versions := [leakedKey] }

theorem isNew_newTrail : newTrail.IsNew := ⟨rfl, rfl, rfl⟩

def moveTo (read : ℕ) (target : FindingState) : TrailAction :=
  .patch read 7 { state := some target } none

def seenBy (read scanId : ℕ) : TrailAction :=
  .ingest read scanId 0 [({ fingerprint := "f1", secretHash := "h1", ruleId := "aws-key" }, none)]

theorem history_is_legal_after_reopen : ∃ w : TrailState,
    w.row.state = .falsePositive ∧ w.events.length = 3 ∧ w.LegalHistory ∧
      ∀ a w', w.step a = some w' → (w'.LegalHistory ↔ w.Current a) := by
  have hrun : (Machine.run step Current newTrail
      [.reconcile 2, seenBy 1 3, moveTo 2 .falsePositive]).any fun w =>
        w.row.state = .falsePositive ∧ w.events.length = 3 := by decide +kernel
  have hnew : Machine.Reachable step Current IsNew newTrail := .start isNew_newTrail
  obtain ⟨w, hw, hstate, hevents⟩ := hnew.exists_of_run hrun
  obtain ⟨hlegal, hnext⟩ := history_is_legal hw
  exact ⟨w, hstate, hevents, hlegal, hnext⟩

/-- Scan 3 has loaded the finding resolved; before it commits, an analyst re-opens it and
calls it a false positive. The scan opens it again, from a state it has not seen. -/
theorem scan_can_replace_a_judgement : ∃ w w' : TrailState,
    Machine.Reachable step (fun _ _ => True) IsNew w' ∧ w.row.state = .falsePositive ∧
      w.step (seenBy 1 3) = some w' ∧ w'.row.state = .opened ∧ ¬ w'.LegalHistory := by
  have hrun : (Machine.run step Current newTrail
      [.reconcile 2, moveTo 1 .opened, moveTo 2 .falsePositive]).any fun w =>
        decide (w.row.state = .falsePositive ∧ ¬ w.Current (seenBy 1 3)) &&
          (w.step (seenBy 1 3)).any fun w' => w'.row.state = .opened := by decide +kernel
  obtain ⟨w, hw, hobs⟩ := (Option.any_eq_true _ _).1 hrun
  obtain ⟨hnow, hnext⟩ := Bool.and_eq_true_iff.1 hobs
  obtain ⟨hstate, hstale⟩ := of_decide_eq_true hnow
  obtain ⟨w', hstep, hopen⟩ := (Option.any_eq_true _ _).1 hnext
  have hnew : Machine.Reachable step Current IsNew newTrail := .start isNew_newTrail
  have hreach := hnew.run hw
  refine ⟨w, w', (hreach.weaken fun _ _ _ => trivial).step trivial hstep, hstate, hstep,
    of_decide_eq_true hopen, fun hlegal => hstale ?_⟩
  exact ((legalHistory_of_reachable hreach).step_iff hstep).1 hlegal

end TrailState

end IcebergSST
