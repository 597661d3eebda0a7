import IcebergSST.Findings
import IcebergSST.Library.Machine

/-!
# What a purge round removes

The findings and their trail, the transactions that write a finding, and one purge round
taken statement by statement under READ COMMITTED. A statement sees what was committed
when it began. The delete of findings repeats its predicate on each row it comes to, as
that row stands once its lock is had, and keeps the lock; the delete of events decides by
its own snapshot whether the finding of an event is open, and locks no finding.

What a round removes of the findings is dead when it commits, in every run. Of the trail
it is so in every run in which no finding is re-opened while a round has its events among
those it removes.
-/

namespace IcebergSST

structure RetainedFinding where
  state : FindingState := .opened
  resolution : Option FindingResolution := none
  suppressedAt : Option ℤ := none
  updatedAt : ℤ
  deriving DecidableEq

structure TrailEvent where
  id : ℕ
  findingId : ℕ
  createdAt : ℤ
  deriving DecidableEq

structure RetentionSettings where
  resolvedFindingsDays : ℤ := 0
  findingEventsDays : ℤ := 0
  batch : ℕ

/-- The instant before which rows are eligible; a window of no days is disabled. -/
def cutoff (days now : ℤ) : Option ℤ := if days ≤ 0 then none else some (now - 86400 * days)

inductive RowWrite
  | sighting (suppressedAt : Option ℤ) (now : ℤ)
  | unseen (now : ℤ)
  | triage (target : FindingState) (now : ℤ)
  | suppress (now : ℤ)
  | release (now : ℤ)

def RowWrite.apply (row : RetainedFinding) : RowWrite → RetainedFinding
  | .sighting suppressedAt now =>
      if row.state = .resolved then
        { state := .opened, resolution := none, suppressedAt, updatedAt := now }
      else { row with suppressedAt, updatedAt := now }
  | .unseen now =>
      if row.state = .opened then
        { row with state := .resolved, resolution := some .auto, updatedAt := now }
      else row
  | .triage target now =>
      if target ∈ legalTransitions row.state then
        { row with
          state := target
          resolution := if target = .resolved then some .manual else none
          updatedAt := now }
      else row
  | .suppress now => { row with suppressedAt := row.suppressedAt <|> some now, updatedAt := now }
  | .release now =>
      if row.suppressedAt = none then row else { row with suppressedAt := none, updatedAt := now }

inductive PurgeStage
  | begun
  | findingsSelected (ids : List ℕ)
  /-- The rows that the snapshot of the delete lets through and it has not come to. -/
  | findingsDeleting (pending : List ℕ)
  | eventsSelected (ids : List ℕ)
  | done

structure Purge where
  settings : RetentionSettings
  now : ℤ
  stage : PurgeStage := .begun
  /-- What it has deleted and not committed. -/
  findings : List ℕ := []
  events : List TrailEvent := []

structure Retention where
  findings : ℕ → Option RetainedFinding
  events : List TrailEvent := []
  purge : Option Purge := none
  /-- The findings removed so far, as they stood when their purge committed. -/
  removedFindings : List RetainedFinding := []
  /-- The events removed so far, with their finding at that instant if it remained. -/
  removedEvents : List (TrailEvent × Option RetainedFinding) := []

inductive RetentionAction
  | create (id : ℕ) (now : ℤ)
  | write (id : ℕ) (a : RowWrite)
  | note (e : TrailEvent)
  | begin (settings : RetentionSettings) (now : ℤ)
  | selectFindings (ids : List ℕ)
  | deleteFindings
  | visit
  | selectEvents (ids : List ℕ)
  | deleteEvents
  | commit
  | rollback

/-- Whether the purge may take a finding, whichever window it has. -/
def RetainedFinding.Purgeable (row : RetainedFinding) (days now : ℤ) : Prop :=
  row.state = .resolved ∧ row.resolution = some .auto ∧ row.suppressedAt = none ∧
    ∃ limit ∈ cutoff days now, row.updatedAt < limit

instance (row : RetainedFinding) (days now : ℤ) : Decidable (row.Purgeable days now) :=
  decidable_of_iff (row.state = .resolved ∧ row.resolution = some .auto ∧
    row.suppressedAt = none ∧ (cutoff days now).any (row.updatedAt < ·)) (by
      simp [RetainedFinding.Purgeable, Option.any_eq_true])

namespace Retention

/-- The predicate of `_purge_findings`, by the row as it is committed. -/
def Eligible (w : Retention) (p : Purge) (id : ℕ) : Prop :=
  ∃ row ∈ w.findings id, row.Purgeable p.settings.resolvedFindingsDays p.now

instance (w : Retention) (p : Purge) (id : ℕ) : Decidable (w.Eligible p id) :=
  decidable_of_iff ((w.findings id).any fun row =>
    row.Purgeable p.settings.resolvedFindingsDays p.now) (by
      simp [Eligible, Option.any_eq_true])

def Closed (w : Retention) (id : ℕ) : Prop := ∀ row ∈ w.findings id, row.state ≠ .opened

instance (w : Retention) (id : ℕ) : Decidable (w.Closed id) :=
  inferInstanceAs (Decidable (∀ row ∈ w.findings id, _))

/-- The predicate of `_purge_finding_events`; the trail of a finding that the round has
deleted is gone with it. -/
def EventEligible (w : Retention) (p : Purge) (e : TrailEvent) : Prop :=
  w.Closed e.findingId ∧ e.findingId ∉ p.findings ∧
    (cutoff p.settings.findingEventsDays p.now).any (e.createdAt < ·)

instance (w : Retention) (p : Purge) (e : TrailEvent) : Decidable (w.EventEligible p e) :=
  inferInstanceAs (Decidable (_ ∧ _))

/-- Another transaction waits for a row that the round has deleted. -/
def Locked (w : Retention) (id : ℕ) : Prop := ∃ p ∈ w.purge, id ∈ p.findings

instance (w : Retention) (id : ℕ) : Decidable (w.Locked id) :=
  decidable_of_iff (w.purge.any fun p => id ∈ p.findings) (by
    simp [Locked, Option.any_eq_true])

def setFinding (w : Retention) (id : ℕ) (row : Option RetainedFinding) : Retention :=
  { w with findings := Function.update w.findings id row }

@[simp] theorem setFinding_self (w : Retention) (id : ℕ) (row : Option RetainedFinding) :
    (w.setFinding id row).findings id = row := by
  unfold setFinding
  exact Function.update_self id row w.findings

theorem setFinding_of_ne (w : Retention) {id id' : ℕ} (row : Option RetainedFinding)
    (h : id' ≠ id) : (w.setFinding id row).findings id' = w.findings id' := by
  unfold setFinding
  exact Function.update_of_ne h row w.findings

def setPurge (w : Retention) (p : Purge) : Retention := { w with purge := some p }

def Removes (p : Purge) (e : TrailEvent) : Prop := e.findingId ∈ p.findings ∨ e ∈ p.events

instance (p : Purge) (e : TrailEvent) : Decidable (Removes p e) :=
  inferInstanceAs (Decidable (_ ∨ _))

def remains (w : Retention) (p : Purge) (id : ℕ) : Option RetainedFinding :=
  if id ∈ p.findings then none else w.findings id

def committed (w : Retention) (p : Purge) : Retention where
  findings := w.remains p
  events := w.events.filter fun e => ¬ Removes p e
  purge := none
  removedFindings := w.removedFindings ++ p.findings.filterMap w.findings
  removedEvents := w.removedEvents ++
    (w.events.filter fun e => Removes p e).map fun e => (e, w.remains p e.findingId)

def purgeStep (w : Retention) (p : Purge) : RetentionAction → Option Retention
  | .selectFindings ids =>
      match p.stage with
      | .begun =>
          if ids.length ≤ p.settings.batch ∧ ∀ id ∈ ids, w.Eligible p id then
            some (w.setPurge { p with stage := .findingsSelected ids })
          else none
      | _ => none
  | .deleteFindings =>
      match p.stage with
      | .findingsSelected ids =>
          some (w.setPurge
            { p with stage := .findingsDeleting (ids.filter fun id => w.Eligible p id) })
      | _ => none
  | .visit =>
      match p.stage with
      | .findingsDeleting (id :: pending) =>
          some (w.setPurge { p with
            stage := .findingsDeleting pending
            findings := if w.Eligible p id then p.findings ++ [id] else p.findings })
      | _ => none
  | .selectEvents ids =>
      match p.stage with
      | .findingsDeleting [] =>
          if ids.length ≤ p.settings.batch ∧
              ∀ id ∈ ids, ∃ e ∈ w.events, e.id = id ∧ w.EventEligible p e then
            some (w.setPurge { p with stage := .eventsSelected ids })
          else none
      | _ => none
  | .deleteEvents =>
      match p.stage with
      | .eventsSelected ids =>
          some (w.setPurge { p with
            stage := .done
            events := w.events.filter fun e => e.id ∈ ids ∧ w.EventEligible p e })
      | _ => none
  | .commit =>
      match p.stage with
      | .done => some (w.committed p)
      | _ => none
  | _ => none

def step (w : Retention) : RetentionAction → Option Retention
  | .create id now =>
      if w.findings id = none ∧ ∀ e ∈ w.events, e.findingId ≠ id then
        some (w.setFinding id (some { updatedAt := now }))
      else none
  | .write id a =>
      if w.Locked id then none
      else some (w.setFinding id ((w.findings id).map fun row => a.apply row))
  | .note e =>
      if w.Locked e.findingId ∨ w.findings e.findingId = none ∨ ∃ e' ∈ w.events, e'.id = e.id then
        none
      else some { w with events := w.events ++ [e] }
  | .begin settings now =>
      match w.purge with
      | none => some (w.setPurge { settings, now })
      | some _ => none
  | .rollback => some { w with purge := none }
  | a => w.purge.bind fun p => w.purgeStep p a

/-- No finding is re-opened while the round has its events among those it removes. -/
def Quiet (w : Retention) : RetentionAction → Prop
  | .write id a => ∀ row ∈ w.findings id, row.state ≠ .opened → (a.apply row).state = .opened →
      ∀ p ∈ w.purge, ∀ e ∈ p.events, e.findingId ≠ id
  | _ => True

variable {w w' : Retention} {p : Purge}

def Dead (row : RetainedFinding) : Prop :=
  row.state = .resolved ∧ row.resolution = some .auto ∧ row.suppressedAt = none

theorem Eligible.dead {id : ℕ} (h : w.Eligible p id) : ∃ row ∈ w.findings id, Dead row := by
  obtain ⟨row, hrow, hstate, hresolution, hsuppressed, -⟩ := h
  exact ⟨row, hrow, hstate, hresolution, hsuppressed⟩

/-- What a round adds to what it deletes before it commits: a finding that is dead now, or
events whose findings are closed now. -/
inductive Takes (w : Retention) (p p' : Purge) : Prop
  | nothing : p'.findings = p.findings → p'.events = p.events → Takes w p p'
  | finding (id : ℕ) : w.Eligible p id → p'.findings = p.findings ++ [id] →
      p'.events = p.events → Takes w p p'
  | events : p'.findings = p.findings → (∀ e ∈ p'.events, e ∈ w.events ∧ w.EventEligible p e) →
      Takes w p p'

theorem purgeStep_cases {a : RetentionAction} (h : w.purgeStep p a = some w') :
    (∃ p', w' = w.setPurge p' ∧ Takes w p p') ∨ w' = w.committed p := by
  obtain ⟨settings, now, stage, findings, events⟩ := p
  cases a with
  | selectFindings ids =>
      cases stage with
      | begun =>
          obtain ⟨-, hset⟩ := Option.ite_none_right_eq_some.1 h
          exact Or.inl ⟨_, (Option.some.inj hset).symm, .nothing rfl rfl⟩
      | _ => cases h
  | deleteFindings =>
      cases stage with
      | findingsSelected ids =>
          exact Or.inl ⟨_, (Option.some.inj h).symm, .nothing rfl rfl⟩
      | _ => cases h
  | visit =>
      cases stage with
      | findingsDeleting pending =>
          cases pending with
          | nil => cases h
          | cons id pending =>
              refine Or.inl ⟨_, (Option.some.inj h).symm, ?_⟩
              by_cases helig : w.Eligible
                  ⟨settings, now, .findingsDeleting (id :: pending), findings, events⟩ id
              · exact .finding id helig (if_pos helig) rfl
              · exact .nothing (if_neg helig) rfl
      | _ => cases h
  | selectEvents ids =>
      cases stage with
      | findingsDeleting pending =>
          cases pending with
          | nil =>
              obtain ⟨-, hset⟩ := Option.ite_none_right_eq_some.1 h
              exact Or.inl ⟨_, (Option.some.inj hset).symm, .nothing rfl rfl⟩
          | cons id pending => cases h
      | _ => cases h
  | deleteEvents =>
      cases stage with
      | eventsSelected ids =>
          refine Or.inl ⟨_, (Option.some.inj h).symm, .events rfl ?_⟩
          intro e he
          obtain ⟨hmem, hdoomed⟩ := List.mem_filter.1 he
          exact ⟨hmem, (of_decide_eq_true hdoomed).2⟩
      | _ => cases h
  | commit =>
      cases stage with
      | done => exact Or.inr (Option.some.inj h).symm
      | _ => cases h
  | _ => cases h

theorem step_cases {a : RetentionAction} (h : w.step a = some w') :
    (∃ id now, a = .create id now ∧ w.findings id = none ∧ (∀ e ∈ w.events, e.findingId ≠ id) ∧
      w' = w.setFinding id (some { updatedAt := now })) ∨
    (∃ id b, a = .write id b ∧ ¬ w.Locked id ∧
      w' = w.setFinding id ((w.findings id).map fun row => b.apply row)) ∨
    (∃ e, w' = { w with events := w.events ++ [e] }) ∨
    (∃ settings now, w.purge = none ∧ w' = w.setPurge { settings, now }) ∨
    w' = { w with purge := none } ∨
    ∃ p, w.purge = some p ∧ ((∃ p', w' = w.setPurge p' ∧ Takes w p p') ∨ w' = w.committed p) := by
  have hpurge : ∀ b, w.purge.bind (fun p => w.purgeStep p b) = some w' →
      ∃ p, w.purge = some p ∧
        ((∃ p', w' = w.setPurge p' ∧ Takes w p p') ∨ w' = w.committed p) := by
    intro b hb
    obtain ⟨p, hp, hstep⟩ := Option.bind_eq_some_iff.1 hb
    exact ⟨p, hp, purgeStep_cases hstep⟩
  cases a with
  | create id now =>
      obtain ⟨⟨hnew, hfree⟩, hput⟩ := Option.ite_none_right_eq_some.1 h
      exact Or.inl ⟨id, now, rfl, hnew, hfree, (Option.some.inj hput).symm⟩
  | write id b =>
      obtain ⟨hfree, hput⟩ := Option.ite_none_left_eq_some.1 h
      exact Or.inr (Or.inl ⟨id, b, rfl, hfree, (Option.some.inj hput).symm⟩)
  | note e =>
      obtain ⟨-, hput⟩ := Option.ite_none_left_eq_some.1 h
      exact Or.inr (Or.inr (Or.inl ⟨e, (Option.some.inj hput).symm⟩))
  | begin settings now =>
      right; right; right; left
      cases hp : w.purge with
      | none =>
          simp only [step, hp, Option.some.injEq] at h
          exact ⟨settings, now, rfl, h.symm⟩
      | some p => simp [step, hp] at h
  | rollback =>
      right; right; right; right; left
      exact (Option.some.inj h).symm
  | selectFindings ids | deleteFindings | visit | selectEvents ids | deleteEvents | commit =>
      right; right; right; right; right
      exact hpurge _ h

/-- What a round has deleted is dead and stays so under its lock. -/
structure SparesFindings (w : Retention) : Prop where
  held : ∀ p ∈ w.purge, ∀ id ∈ p.findings, ∃ row ∈ w.findings id, Dead row
  removed : ∀ row ∈ w.removedFindings, Dead row

theorem SparesFindings.step (hs : w.SparesFindings) {a : RetentionAction}
    (h : w.step a = some w') : w'.SparesFindings := by
  rcases step_cases h with ⟨id, now, rfl, hnew, -, rfl⟩ | ⟨id, b, rfl, hfree, rfl⟩ | ⟨e, rfl⟩ |
    ⟨settings, now, -, rfl⟩ | rfl | ⟨p, hp, ⟨p', rfl, htakes⟩ | rfl⟩
  · refine ⟨?_, hs.removed⟩
    intro p hp id' hid'
    obtain ⟨row, hrow, hdead⟩ := hs.held p hp id' hid'
    have hne : id' ≠ id := by
      rintro rfl
      rw [hnew] at hrow
      cases hrow
    exact ⟨row, by rwa [setFinding_of_ne _ _ hne], hdead⟩
  · refine ⟨?_, hs.removed⟩
    intro p hp id' hid'
    have hne : id' ≠ id := by
      rintro rfl
      exact hfree ⟨p, hp, hid'⟩
    obtain ⟨row, hrow, hdead⟩ := hs.held p hp id' hid'
    exact ⟨row, by rwa [setFinding_of_ne _ _ hne], hdead⟩
  · exact ⟨hs.held, hs.removed⟩
  · refine ⟨?_, hs.removed⟩
    intro p hp id hid
    rw [← Option.some.inj hp] at hid
    cases hid
  · exact ⟨fun p hp => absurd hp (Option.not_mem_none p), hs.removed⟩
  · refine ⟨?_, hs.removed⟩
    intro p'' hp'' id hid
    obtain rfl : p' = p'' := Option.some.inj hp''
    cases htakes with
    | nothing hsame _ => exact hs.held p hp id (hsame ▸ hid)
    | events hsame _ => exact hs.held p hp id (hsame ▸ hid)
    | finding new helig hmore _ =>
        rw [hmore] at hid
        rcases List.mem_append.1 hid with hold | hnew
        · exact hs.held p hp id hold
        · rw [List.mem_singleton.1 hnew]
          exact helig.dead
  · refine ⟨fun p' hp' => absurd hp' (Option.not_mem_none p'), ?_⟩
    intro row hrow
    rcases List.mem_append.1 hrow with hold | hnew
    · exact hs.removed row hold
    · obtain ⟨id, hid, hfound⟩ := List.mem_filterMap.1 hnew
      obtain ⟨row', hrow', hdead⟩ := hs.held p hp id hid
      rw [hfound] at hrow'
      rwa [Option.some.inj hrow']

/-- The events a round has deleted are those of findings that are closed. -/
structure SparesTrail (w : Retention) : Prop where
  held : ∀ p ∈ w.purge, ∀ e ∈ p.events, e ∈ w.events ∧ w.Closed e.findingId
  removed : ∀ r ∈ w.removedEvents, ∀ row ∈ r.2, row.state ≠ .opened

theorem SparesTrail.step (hs : w.SparesTrail) {a : RetentionAction} (ha : w.Quiet a)
    (h : w.step a = some w') : w'.SparesTrail := by
  rcases step_cases h with ⟨id, now, rfl, -, hfree, rfl⟩ | ⟨id, b, rfl, -, rfl⟩ | ⟨e, rfl⟩ |
    ⟨settings, now, -, rfl⟩ | rfl | ⟨p, hp, ⟨p', rfl, htakes⟩ | rfl⟩
  · refine ⟨?_, hs.removed⟩
    intro p hp e he
    obtain ⟨hmem, hclosed⟩ := hs.held p hp e he
    refine ⟨hmem, ?_⟩
    intro row hrow
    rw [setFinding_of_ne _ _ (hfree e hmem)] at hrow
    exact hclosed row hrow
  · refine ⟨?_, hs.removed⟩
    intro p hp e he
    obtain ⟨hmem, hclosed⟩ := hs.held p hp e he
    refine ⟨hmem, ?_⟩
    intro row hrow hopen
    by_cases heq : e.findingId = id
    · subst heq
      rw [setFinding_self] at hrow
      obtain ⟨before, hbefore, rfl⟩ := Option.map_eq_some_iff.1 hrow
      exact ha before hbefore (hclosed before hbefore) hopen p hp e he rfl
    · rw [setFinding_of_ne _ _ heq] at hrow
      exact hclosed row hrow hopen
  · refine ⟨?_, hs.removed⟩
    intro p hp e' he'
    obtain ⟨hmem, hclosed⟩ := hs.held p hp e' he'
    exact ⟨List.mem_append_left _ hmem, hclosed⟩
  · refine ⟨?_, hs.removed⟩
    intro p hp e he
    rw [← Option.some.inj hp] at he
    cases he
  · exact ⟨fun p hp => absurd hp (Option.not_mem_none p), hs.removed⟩
  · refine ⟨?_, hs.removed⟩
    intro p'' hp'' e he
    obtain rfl : p' = p'' := Option.some.inj hp''
    cases htakes with
    | nothing _ hsame => exact hs.held p hp e (hsame ▸ he)
    | finding _ _ _ hsame => exact hs.held p hp e (hsame ▸ he)
    | events _ hdoomed => exact ⟨(hdoomed e he).1, (hdoomed e he).2.1⟩
  · refine ⟨fun p' hp' => absurd hp' (Option.not_mem_none p'), ?_⟩
    intro r hr row hrow
    rcases List.mem_append.1 hr with hold | hnew
    · exact hs.removed r hold row hrow
    · obtain ⟨e, he, rfl⟩ := List.mem_map.1 hnew
      have hremoves : Removes p e := of_decide_eq_true (List.mem_filter.1 he).2
      change row ∈ w.remains p e.findingId at hrow
      unfold remains at hrow
      split_ifs at hrow with hgone
      · cases hrow
      · rcases hremoves with hfinding | hevent
        · exact absurd hfinding hgone
        · exact (hs.held p hp e hevent).2 row hrow

def IsInitial (w : Retention) : Prop :=
  w.purge = none ∧ w.removedFindings = [] ∧ w.removedEvents = []

/-- In every run, a purge removes no finding that is not auto-resolved and unsuppressed
when it commits. -/
theorem purge_spares_live_findings (hw : Machine.Reachable step (fun _ _ => True) IsInitial w) :
    ∀ row ∈ w.removedFindings, Dead row := by
  have hs : w.SparesFindings := by
    apply hw.invariant
    · rintro w ⟨hpurge, hremoved, -⟩
      constructor
      · intro p hp
        rw [hpurge] at hp
        cases hp
      · intro row hrow
        rw [hremoved] at hrow
        cases hrow
    · intro w a w' hs _ hstep
      exact hs.step hstep
  exact hs.removed

/-- In every run in which no finding is re-opened while a purge has its events among those
it removes, a purge removes no event of a finding that is open when it commits either. -/
theorem retention_spares_live_evidence (hw : Machine.Reachable step Quiet IsInitial w) :
    (∀ row ∈ w.removedFindings, Dead row) ∧
      ∀ r ∈ w.removedEvents, ∀ row ∈ r.2, row.state ≠ .opened := by
  have hs : w.SparesTrail := by
    apply hw.invariant
    · rintro w ⟨hpurge, -, hremoved⟩
      constructor
      · intro p hp
        rw [hpurge] at hp
        cases hp
      · intro r hr
        rw [hremoved] at hr
        cases hr
    · intro w a w' hs ha hstep
      exact hs.step ha hstep
  exact ⟨purge_spares_live_findings (hw.weaken fun _ _ _ => trivial), hs.removed⟩

instance (w : Retention) (a : RetentionAction) : Decidable (w.Quiet a) :=
  match a with
  | .write id a => inferInstanceAs (Decidable (∀ row ∈ w.findings id, row.state ≠ .opened →
      (a.apply row).state = .opened → ∀ p ∈ w.purge, ∀ e ∈ p.events, e.findingId ≠ id))
  | .create .. | .note _ | .begin .. | .selectFindings _ | .deleteFindings | .visit
  | .selectEvents _ | .deleteEvents | .commit | .rollback => .isTrue trivial

def oldTrail : Retention where
  findings := fun id => if id = 1 then some ⟨.resolved, some .manual, none, 0⟩ else none
  events := [⟨7, 1, 0⟩]

def trailRound : List RetentionAction :=
  [.begin ⟨0, 30, 100⟩ 2600000, .selectFindings [], .deleteFindings, .selectEvents [7],
    .deleteEvents]

/-- The finding comes back after the round. -/
theorem retention_spares_live_evidence_of_a_quiet_round : ∃ w : Retention,
    w.removedEvents = [(⟨7, 1, 0⟩, some ⟨.resolved, some .manual, none, 0⟩)] ∧
      w.findings 1 = some ⟨.opened, none, none, 2600001⟩ ∧
      (∀ row ∈ w.removedFindings, Dead row) ∧
      ∀ r ∈ w.removedEvents, ∀ row ∈ r.2, row.state ≠ .opened := by
  have hrun : (Machine.run step Quiet oldTrail
      (trailRound ++ [.commit, .write 1 (.sighting none 2600001)])).any fun w =>
        w.removedEvents = [(⟨7, 1, 0⟩, some ⟨.resolved, some .manual, none, 0⟩)] ∧
          w.findings 1 = some ⟨.opened, none, none, 2600001⟩ := by
    decide +kernel
  have hreach : Machine.Reachable step Quiet IsInitial oldTrail := .start ⟨rfl, rfl, rfl⟩
  obtain ⟨w, hw, hevents, hopen⟩ := hreach.exists_of_run hrun
  exact ⟨w, hevents, hopen, retention_spares_live_evidence hw⟩

/-- A scan sees the secret again between the delete of the events and the commit. -/
theorem retention_removes_live_evidence : ∃ w : Retention,
    Machine.Reachable step (fun _ _ => True) IsInitial w ∧
      ∃ r ∈ w.removedEvents, ∃ row ∈ r.2, row.state = .opened := by
  have hrun : (Machine.run step (fun _ _ => True) oldTrail
      (trailRound ++ [.write 1 (.sighting none 2600001), .commit])).any fun w =>
        w.removedEvents = [(⟨7, 1, 0⟩, some ⟨.opened, none, none, 2600001⟩)] := by
    decide +kernel
  have hreach : Machine.Reachable step (fun _ _ => True) IsInitial oldTrail :=
    .start ⟨rfl, rfl, rfl⟩
  obtain ⟨w, hw, hremoved⟩ := hreach.exists_of_run hrun
  refine ⟨w, hw, (⟨7, 1, 0⟩, some ⟨.opened, none, none, 2600001⟩), ?_, _, rfl, rfl⟩
  rw [hremoved]
  exact List.mem_singleton_self _

end Retention

end IcebergSST
