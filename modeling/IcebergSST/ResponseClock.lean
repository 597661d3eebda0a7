import IcebergSST.Detect
import IcebergSST.Findings
import IcebergSST.Library.Machine

/-!
# The response clock of a finding

One finding with its response date, the response targets as they are edited, and the
instants at which the finding opens. A scan that sees a resolved finding again restarts
the clock, if the severity it reports has a target; an analyst who re-opens a finding
leaves the date as it is.

Where every opening either restarts the clock or finds no date that has passed, a
finding is never late for a deadline that ran out before it opened.
-/

namespace IcebergSST

open Detection (Severity severityRank)

/-- The hours each severity has, where a target is configured. -/
abbrev ResponseTargets := Severity → Option ℕ

structure ClockedFinding where
  state : FindingState := .opened
  resolution : Option FindingResolution := none
  severity : Severity
  suppressedAt : Option ℕ := none
  /-- In seconds, as every instant here. -/
  dueAt : Option ℕ := none
  deriving DecidableEq

namespace ClockedFinding

def startClock (f : ClockedFinding) (targets : ResponseTargets) (now : ℕ) (restart : Bool) :
    ClockedFinding :=
  if f.dueAt.isSome ∧ ¬ restart then f
  else
    match targets f.severity with
    | none => f
    | some hours => { f with dueAt := some (now + 3600 * hours) }

def seenAgain (f : ClockedFinding) (targets : ResponseTargets) (severity : Severity) (now : ℕ) :
    ClockedFinding :=
  let reopened := f.state = .resolved
  startClock { f with
    severity
    state := if reopened then .opened else f.state
    resolution := if reopened then none else f.resolution } targets now reopened

/-- `_transition`; the clock is not touched. -/
def transition (f : ClockedFinding) (target : FindingState) : ClockedFinding :=
  { f with state := target, resolution := if target = .resolved then some .manual else none }

def overdue (f : ClockedFinding) (now : ℕ) : Bool :=
  f.state = .opened && f.suppressedAt.isNone && f.dueAt.any (· < now)

end ClockedFinding

/-- An instant at which the finding came to be open, with the date it then had. -/
structure Opening where
  instant : ℕ
  dueAt : Option ℕ
  deriving DecidableEq

structure ClockLife where
  targets : ResponseTargets
  finding : ClockedFinding
  clock : ℕ
  /-- The latest first. -/
  openings : List Opening

inductive ClockAction
  | setTarget (severity : Severity) (hours : Option ℕ)
  | sighting (severity : Severity) (now : ℕ)
  | unseen (now : ℕ)
  | triage (target : FindingState) (now : ℕ)
  | hide (suppressedAt : Option ℕ)

namespace ClockLife

def created (targets : ResponseTargets) (severity : Severity) (now : ℕ) : ClockLife :=
  let finding := ClockedFinding.startClock { severity } targets now false
  { targets, finding, clock := now, openings := [⟨now, finding.dueAt⟩] }

def put (w : ClockLife) (finding : ClockedFinding) (now : ℕ) : ClockLife :=
  { w with
    finding
    clock := now
    openings :=
      if w.finding.state ≠ .opened ∧ finding.state = .opened then
        ⟨now, finding.dueAt⟩ :: w.openings
      else w.openings }

def step (w : ClockLife) : ClockAction → Option ClockLife
  | .setTarget severity hours =>
      some { w with targets := Function.update w.targets severity hours }
  | .sighting severity now =>
      if w.clock ≤ now then some (w.put (w.finding.seenAgain w.targets severity now) now) else none
  | .unseen now =>
      if w.clock ≤ now ∧ w.finding.state = .opened ∧ w.finding.suppressedAt = none then
        some (w.put { w.finding with state := .resolved, resolution := some .auto } now)
      else none
  | .triage target now =>
      if w.clock ≤ now ∧ target ∈ legalTransitions w.finding.state then
        some (w.put (w.finding.transition target) now)
      else none
  | .hide suppressedAt => some { w with finding := { w.finding with suppressedAt } }

def Ahead (w : ClockLife) (now : ℕ) : Prop := ∀ due ∈ w.finding.dueAt, now ≤ due

/-- A re-opening by a scan finds a target for the severity it reports, or a date that has
not passed; one by an analyst finds a date that has not passed. -/
def InTime (w : ClockLife) : ClockAction → Prop
  | .sighting severity now =>
      w.finding.state = .resolved → (w.targets severity).isSome ∨ w.Ahead now
  | .triage .opened now => w.Ahead now
  | _ => True

variable {w w' : ClockLife}

theorem startClock_dueAt (f : ClockedFinding) (targets : ResponseTargets) (now : ℕ)
    (restart : Bool) :
    (f.startClock targets now restart).state = f.state ∧
      (f.startClock targets now restart).dueAt =
        if f.dueAt.isSome ∧ ¬ restart then f.dueAt
        else ((targets f.severity).map (now + 3600 * ·)) <|> f.dueAt := by
  unfold ClockedFinding.startClock
  by_cases hkeep : f.dueAt.isSome ∧ ¬ restart
  · rw [if_pos hkeep, if_pos hkeep]
    exact ⟨rfl, rfl⟩
  · rw [if_neg hkeep, if_neg hkeep]
    cases targets f.severity with
    | none => exact ⟨rfl, rfl⟩
    | some hours => exact ⟨rfl, rfl⟩

/-- A re-opening sighting dates the finding anew where there is a target. -/
theorem seenAgain_reopens {f : ClockedFinding} (hresolved : f.state = .resolved)
    (targets : ResponseTargets) (severity : Severity) (now : ℕ) :
    (f.seenAgain targets severity now).state = .opened ∧
      (f.seenAgain targets severity now).dueAt =
        (((targets severity).map (now + 3600 * ·)) <|> f.dueAt) := by
  obtain ⟨hstate, hdue⟩ := startClock_dueAt
    { f with severity, state := .opened, resolution := none } targets now true
  unfold ClockedFinding.seenAgain
  simp only [hresolved, if_true, decide_true]
  rw [hstate, hdue, if_neg (by simp)]
  exact ⟨rfl, rfl⟩

theorem seenAgain_keeps {f : ClockedFinding} (hresolved : f.state ≠ .resolved)
    (targets : ResponseTargets) (severity : Severity) (now : ℕ) :
    (f.seenAgain targets severity now).state = f.state ∧
      ∀ due ∈ (f.seenAgain targets severity now).dueAt, due ∈ f.dueAt ∨ now ≤ due := by
  obtain ⟨hstate, hdue⟩ := startClock_dueAt { f with severity } targets now false
  unfold ClockedFinding.seenAgain
  simp only [hresolved, if_false, decide_false]
  refine ⟨hstate, ?_⟩
  intro due hmem
  rw [hdue] at hmem
  by_cases hkeep : f.dueAt.isSome
  · rw [if_pos ⟨hkeep, by simp⟩] at hmem
    exact Or.inl hmem
  · rw [if_neg (fun h => hkeep h.1)] at hmem
    right
    cases ht : targets severity with
    | none =>
        rw [ht] at hmem
        rw [Option.not_isSome_iff_eq_none.1 hkeep] at hmem
        cases hmem
    | some hours =>
        rw [ht] at hmem
        obtain rfl : now + 3600 * hours = due := Option.some.inj hmem
        omega

/-- A finding opens in time exactly when the opening restarts the clock or finds no date
that has passed. -/
theorem opening_in_time_iff {a : ClockAction} (h : w.step a = some w')
    (hclosed : w.finding.state ≠ .opened) (hopen : w'.finding.state = .opened) :
    (∀ due ∈ w'.finding.dueAt, w'.clock ≤ due) ↔ w.InTime a := by
  cases a with
  | setTarget severity hours | hide suppressedAt =>
      obtain rfl := Option.some.inj h
      exact absurd hopen hclosed
  | sighting severity now =>
      obtain ⟨-, hput⟩ := Option.ite_none_right_eq_some.1 h
      obtain rfl := Option.some.inj hput
      by_cases hresolved : w.finding.state = .resolved
      · obtain ⟨-, hdue⟩ := seenAgain_reopens hresolved w.targets severity now
        change (∀ due ∈ (w.finding.seenAgain w.targets severity now).dueAt, now ≤ due) ↔ _
        rw [hdue]
        unfold InTime
        cases ht : w.targets severity with
        | none => simp [hresolved, ht, Ahead]
        | some hours => simp [hresolved, ht]
      · obtain ⟨hstate, -⟩ := seenAgain_keeps hresolved w.targets severity now
        exact absurd (hstate.symm.trans hopen) hclosed
  | unseen now =>
      obtain ⟨⟨-, hrow, -⟩, -⟩ := Option.ite_none_right_eq_some.1 h
      exact absurd hrow hclosed
  | triage target now =>
      obtain ⟨-, hput⟩ := Option.ite_none_right_eq_some.1 h
      obtain rfl := Option.some.inj hput
      obtain rfl : target = .opened := hopen
      exact Iff.rfl

/-- Every opening so far was in time, and a finding that is open carries no date from
before it opened. -/
structure Sound (w : ClockLife) : Prop where
  inTime : ∀ o ∈ w.openings, ∀ due ∈ o.dueAt, o.instant ≤ due
  past : ∀ o ∈ w.openings, o.instant ≤ w.clock
  current : w.finding.state = .opened → ∃ o ∈ w.openings.head?, ∀ due ∈ w.finding.dueAt,
    o.instant ≤ due

theorem sound_created (targets : ResponseTargets) (severity : Severity) (now : ℕ) :
    (created targets severity now).Sound := by
  have hdue : ∀ due ∈ (created targets severity now).finding.dueAt, now ≤ due := by
    intro due hmem
    obtain ⟨-, hstart⟩ := startClock_dueAt { severity } targets now false
    change due ∈ (ClockedFinding.startClock { severity } targets now false).dueAt at hmem
    rw [hstart, if_neg (by simp)] at hmem
    cases ht : targets severity with
    | none =>
        rw [ht] at hmem
        cases hmem
    | some hours =>
        rw [ht] at hmem
        obtain rfl : now + 3600 * hours = due := Option.some.inj hmem
        omega
  constructor
  · intro o ho
    rw [List.mem_singleton.1 ho]
    exact hdue
  · intro o ho
    rw [List.mem_singleton.1 ho]
    exact le_rfl
  · intro _
    exact ⟨_, rfl, hdue⟩

theorem Sound.opening (hs : w.Sound) {finding : ClockedFinding} {now : ℕ} (hnow : w.clock ≤ now)
    (hclosed : w.finding.state ≠ .opened) (hopen : finding.state = .opened)
    (hdue : ∀ due ∈ finding.dueAt, now ≤ due) : (w.put finding now).Sound := by
  unfold put
  rw [if_pos ⟨hclosed, hopen⟩]
  constructor
  · intro o ho
    rcases List.mem_cons.1 ho with rfl | ho
    · exact hdue
    · exact hs.inTime o ho
  · intro o ho
    rcases List.mem_cons.1 ho with rfl | ho
    · exact le_rfl
    · exact (hs.past o ho).trans hnow
  · intro _
    exact ⟨_, rfl, hdue⟩

theorem Sound.unopened (hs : w.Sound) {finding : ClockedFinding} {now : ℕ} (hnow : w.clock ≤ now)
    (hopen : finding.state = .opened → w.finding.state = .opened)
    (hdue : ∀ due ∈ finding.dueAt, due ∈ w.finding.dueAt ∨ now ≤ due) :
    (w.put finding now).Sound := by
  unfold put
  rw [if_neg (fun h => h.1 (hopen h.2))]
  constructor
  · exact hs.inTime
  · exact fun o ho => (hs.past o ho).trans hnow
  · intro hstate
    obtain ⟨o, hlast, hcurrent⟩ := hs.current (hopen hstate)
    refine ⟨o, hlast, ?_⟩
    intro due hmem
    rcases hdue due hmem with hold | hnew
    · exact hcurrent due hold
    · have hpast := hs.past o (List.mem_of_mem_head? hlast)
      omega

theorem Sound.step (hs : w.Sound) {a : ClockAction} (ha : w.InTime a) (h : w.step a = some w') :
    w'.Sound := by
  cases a with
  | setTarget severity hours | hide suppressedAt =>
      obtain rfl := Option.some.inj h
      exact ⟨hs.inTime, hs.past, hs.current⟩
  | sighting severity now =>
      obtain ⟨hnow, hput⟩ := Option.ite_none_right_eq_some.1 h
      by_cases hresolved : w.finding.state = .resolved
      · have hclosed : w.finding.state ≠ .opened := by
          rw [hresolved]
          decide
        have hopen := (seenAgain_reopens hresolved w.targets severity now).1
        have hdue := (opening_in_time_iff h hclosed (by
          rw [← Option.some.inj hput]
          exact hopen)).2 ha
        obtain rfl := Option.some.inj hput
        exact hs.opening hnow hclosed hopen hdue
      · obtain rfl := Option.some.inj hput
        obtain ⟨hstate, hdue⟩ := seenAgain_keeps hresolved w.targets severity now
        exact hs.unopened hnow (fun hopen => hstate.symm.trans hopen) hdue
  | unseen now =>
      obtain ⟨⟨hnow, -, -⟩, hput⟩ := Option.ite_none_right_eq_some.1 h
      obtain rfl := Option.some.inj hput
      exact hs.unopened hnow (fun hopen => by cases hopen) fun due hmem => Or.inl hmem
  | triage target now =>
      obtain ⟨⟨hnow, hlegal⟩, hput⟩ := Option.ite_none_right_eq_some.1 h
      obtain rfl := Option.some.inj hput
      by_cases htarget : target = .opened
      · subst htarget
        have hclosed : w.finding.state ≠ .opened := by
          intro hopened
          rw [hopened] at hlegal
          exact absurd hlegal (by decide)
        exact hs.opening hnow hclosed rfl ha
      · exact hs.unopened hnow (fun hopen => absurd hopen htarget) fun due hmem => Or.inl hmem

def IsCreated (w : ClockLife) : Prop := ∃ targets severity now, w = created targets severity now

/-- In every run whose openings restart the clock or find no date that has passed, no
opening is late, and an overdue finding has missed a date that ran while it was open. -/
theorem reopened_is_never_late (hw : Machine.Reachable step InTime IsCreated w) :
    (∀ o ∈ w.openings, ∀ due ∈ o.dueAt, o.instant ≤ due) ∧
      ∀ now, w.finding.overdue now → ∃ o ∈ w.openings.head?, ∃ due ∈ w.finding.dueAt,
        o.instant ≤ due ∧ due < now := by
  have hs : w.Sound := by
    apply hw.invariant
    · rintro w ⟨targets, severity, now, rfl⟩
      exact sound_created targets severity now
    · intro w a w' hs ha hstep
      exact hs.step ha hstep
  refine ⟨hs.inTime, ?_⟩
  intro now hlate
  unfold ClockedFinding.overdue at hlate
  simp only [Bool.and_eq_true, decide_eq_true_eq, Option.any_eq_true] at hlate
  obtain ⟨⟨hopen, -⟩, due, hdue, hpassed⟩ := hlate
  obtain ⟨o, hlast, hcurrent⟩ := hs.current hopen
  exact ⟨o, hlast, due, hdue, hcurrent due hdue, hpassed⟩

instance (w : ClockLife) (now : ℕ) : Decidable (w.Ahead now) :=
  inferInstanceAs (Decidable (∀ due ∈ w.finding.dueAt, _))

instance (w : ClockLife) (a : ClockAction) : Decidable (w.InTime a) :=
  match a with
  | .sighting _ _ => inferInstanceAs (Decidable (_ → _ ∨ _))
  | .triage .opened _ => inferInstanceAs (Decidable (w.Ahead _))
  | .triage .falsePositive _ | .triage .acceptedRisk _ | .triage .resolved _ | .setTarget ..
  | .unseen _ | .hide _ => .isTrue trivial

def seenTwice : List ClockAction :=
  [.setTarget .low none, .unseen 3600, .sighting .high 36000]

theorem reopened_is_never_late_by_a_scan : ∃ w : ClockLife,
    w.openings = [⟨36000, some 43200⟩, ⟨0, some 7200⟩] ∧
      (∀ o ∈ w.openings, ∀ due ∈ o.dueAt, o.instant ≤ due) ∧
      ∀ now, w.finding.overdue now → ∃ o ∈ w.openings.head?, ∃ due ∈ w.finding.dueAt,
        o.instant ≤ due ∧ due < now := by
  have hrun : (Machine.run step InTime (created (fun _ => some 2) .high 0) seenTwice).any fun w =>
      w.openings = [⟨36000, some 43200⟩, ⟨0, some 7200⟩] := by
    decide +kernel
  have hreach : Machine.Reachable step InTime IsCreated (created (fun _ => some 2) .high 0) :=
    .start ⟨_, _, _, rfl⟩
  obtain ⟨w, hw, hopenings⟩ := hreach.exists_of_run hrun
  exact ⟨w, hopenings, reopened_is_never_late hw⟩

/-- An analyst re-opens a finding that was resolved past its date. -/
theorem reopened_can_be_late : ∃ w : ClockLife,
    Machine.Reachable step (fun _ _ => True) IsCreated w ∧
      w.openings = [⟨36000, some 7200⟩, ⟨0, some 7200⟩] ∧ w.finding.overdue 36000 = true := by
  have hrun : (Machine.run step (fun _ _ => True) (created (fun _ => some 2) .high 0)
      [.triage .resolved 3600, .triage .opened 36000]).any fun w =>
        w.openings = [⟨36000, some 7200⟩, ⟨0, some 7200⟩] ∧ w.finding.overdue 36000 = true := by
    decide +kernel
  have hreach : Machine.Reachable step (fun _ _ => True) IsCreated
      (created (fun _ => some 2) .high 0) := .start ⟨_, _, _, rfl⟩
  exact hreach.exists_of_run hrun

end ClockLife

end IcebergSST
