import IcebergSST.Library.Machine

/-!
# The cron scheduler

Every replica beats; the one that takes the advisory lock runs the round, on a session of
its own besides the one that holds the lock. The launcher commits its scan in the middle of
the round, together with the bookkeeping of the schedules before; a schedule's own
bookkeeping follows it, and is committed with the next launch or at the end of the round.

What a round saw as due when it began and which scans were launched for what are history,
which no code reads.
-/

namespace IcebergSST

structure Schedule where
  id : ℕ
  sourceId : ℕ
  cron : String
  enabled : Bool := true
  nextRunAt : Option ℕ := none
  lastRunAt : Option ℕ := none
  deriving DecidableEq, Repr

/-- `next_fire_time`: the first time a cron expression fires strictly after another. -/
structure CronClock where
  next : String → ℕ → ℕ
  later : ∀ cron after, after < next cron after

/-- One without a `next_run_at` gets its first run. -/
def Schedule.DueAt (now : ℕ) (s : Schedule) : Bool :=
  s.enabled && s.nextRunAt.all (· ≤ now)

def dueSchedules (schedules : List Schedule) (now : ℕ) : List Schedule :=
  schedules.filter (·.DueAt now)

/-- A scan launched for a schedule, and the `next_run_at` that was due. -/
structure ScheduledLaunch where
  scheduleId : ℕ
  occurrence : Option ℕ
  sourceId : ℕ
  deriving DecidableEq, Repr

def ScheduledLaunch.key (l : ScheduledLaunch) : ℕ × Option ℕ := (l.scheduleId, l.occurrence)

/-- A launcher that raises does so before its commit or after it. -/
inductive LaunchFault
  | beforeCommit
  | afterCommit
  deriving DecidableEq, Repr

structure Round where
  now : ℕ
  /-- What was due when it began. -/
  started : List Schedule
  /-- What it has still to come to. -/
  due : List Schedule
  /-- The schedules with a new `next_run_at` that is not committed yet. -/
  written : List (ℕ × ℕ) := []
  /-- Those whose launcher raised. -/
  skipped : List ℕ := []
  deriving DecidableEq, Repr

structure SchedulerWorld (ι : Type) where
  schedules : List Schedule
  /-- A source that is missing or disabled is not scanned. -/
  sourceEnabled : ℕ → Bool
  /-- The sources with an active scan. -/
  active : Finset ℕ := ∅
  launches : List ScheduledLaunch := []
  /-- Who holds the advisory lock. -/
  leader : Option ι := none
  rounds : ι → Option Round := fun _ => none

inductive SchedulerAction (ι : Type)
  | beat (i : ι) (now : ℕ)
  /-- The next due schedule of the round. -/
  | visit (i : ι) (fault : Option LaunchFault)
  /-- The commit at the end of `tick`. -/
  | commit (i : ι)
  /-- The end of the round, after the other sweeps. -/
  | release (i : ι)
  | crash (i : ι)
  | scanEnds (sourceId : ℕ)
  /-- A scan that no schedule launched. -/
  | scanStarts (sourceId : ℕ)
  | enableSource (sourceId : ℕ) (enabled : Bool)

def Schedule.bookkept (now : ℕ) (written : List (ℕ × ℕ)) (s : Schedule) : Schedule :=
  match written.find? fun r => r.1 = s.id with
  | some r => { s with nextRunAt := some r.2, lastRunAt := some now }
  | none => s

def Round.bookkept (r : Round) (schedules : List Schedule) : List Schedule :=
  schedules.map (Schedule.bookkept r.now r.written)

namespace SchedulerWorld
variable {ι : Type} [DecidableEq ι]

def Launches (w : SchedulerWorld ι) (s : Schedule) : Bool :=
  w.sourceEnabled s.sourceId && s.sourceId ∉ w.active

/-- The next due schedule, with what the launcher made of it. -/
def visit (cron : CronClock) (w : SchedulerWorld ι) (i : ι) (r : Round) (s : Schedule)
    (due : List Schedule) (fault : Option LaunchFault) : SchedulerWorld ι :=
  let next := (s.id, cron.next s.cron r.now)
  let skipped := { r with due, skipped := s.id :: r.skipped }
  if fault = some .beforeCommit then { w with rounds := Function.update w.rounds i (some skipped) }
  else if w.Launches s then
    let round := if fault.isSome then { skipped with written := [] }
      else { r with due, written := [next] }
    { w with
      schedules := r.bookkept w.schedules
      active := insert s.sourceId w.active
      launches := ⟨s.id, s.nextRunAt, s.sourceId⟩ :: w.launches
      rounds := Function.update w.rounds i (some round) }
  else
    { w with
      rounds := Function.update w.rounds i (some { r with due, written := next :: r.written }) }

def step (cron : CronClock) (w : SchedulerWorld ι) :
    SchedulerAction ι → Option (SchedulerWorld ι)
  | .beat i now =>
      if w.rounds i = none ∧ w.leader = none then
        let due := dueSchedules w.schedules now
        some { w with
          leader := some i
          rounds := Function.update w.rounds i (some { now, started := due, due }) }
      else some w
  | .visit i fault =>
      match w.rounds i with
      | some r =>
          match r.due with
          | s :: due =>
              if fault = some .afterCommit ∧ ¬ w.Launches s then none
              else some (w.visit cron i r s due fault)
          | [] => none
      | none => none
  | .commit i =>
      match w.rounds i with
      | some r =>
          if r.due = [] then
            some { w with
              schedules := r.bookkept w.schedules
              rounds := Function.update w.rounds i (some { r with written := [] }) }
          else none
      | none => none
  | .release i =>
      match w.rounds i with
      | some r =>
          if r.due = [] ∧ r.written = [] then
            some { w with leader := none, rounds := Function.update w.rounds i none }
          else none
      | none => none
  | .crash i =>
      some { w with
        leader := if w.leader = some i then none else w.leader
        rounds := Function.update w.rounds i none }
  | .scanEnds sourceId => some { w with active := w.active.erase sourceId }
  | .scanStarts sourceId => some { w with active := insert sourceId w.active }
  | .enableSource sourceId enabled =>
      some { w with sourceEnabled := Function.update w.sourceEnabled sourceId enabled }

/-- The committed `next_run_at` has moved past what a scan was launched for. -/
def MovedOn (schedules : List Schedule) (l : ScheduledLaunch) : Prop :=
  ∃ s ∈ schedules, s.id = l.scheduleId ∧ ∃ n ∈ s.nextRunAt, ∀ v ∈ l.occurrence, v < n

def PendingIn (r : Round) (l : ScheduledLaunch) : Prop := l.scheduleId ∈ r.written.map Prod.fst

/-- The source of a launched scan stays busy until the bookkeeping of its schedule is
committed: a round that is lost before leaves it busy, and it stays so until a later round
has moved the schedule on. -/
def StaysBusy (w : SchedulerWorld ι) : SchedulerAction ι → Prop
  | .crash i => ∀ r ∈ w.rounds i, ∀ l ∈ w.launches, PendingIn r l → ¬ MovedOn w.schedules l →
      l.sourceId ∈ w.active
  | .scanEnds sourceId => ∀ l ∈ w.launches, l.sourceId = sourceId → ¬ MovedOn w.schedules l →
      ∃ i, ∃ r ∈ w.rounds i, PendingIn r l
  | _ => True

end SchedulerWorld

def Advanced (schedules : List Schedule) (id now : ℕ) : Prop :=
  ∃ s ∈ schedules, s.id = id ∧ ∃ n ∈ s.nextRunAt, now < n

structure Round.Sound (schedules : List Schedule) (r : Round) : Prop where
  dueIds : (r.due.map (·.id)).Nodup
  due : ∀ s ∈ r.due, s ∈ schedules ∧ s.id ∉ r.written.map Prod.fst
  dueAt : ∀ s ∈ r.due, s.DueAt r.now
  written : ∀ e ∈ r.written, r.now < e.2 ∧ ∃ s ∈ schedules, s.id = e.1 ∧ s.DueAt r.now
  started : ∀ s ∈ r.started, s ∈ r.due ∨ s.id ∈ r.skipped ∨ s.id ∈ r.written.map Prod.fst ∨
    Advanced schedules s.id r.now

section Bookkeeping
variable {schedules : List Schedule} {r : Round} {s : Schedule}

theorem Schedule.bookkept_id (now : ℕ) (written : List (ℕ × ℕ)) (s : Schedule) :
    (s.bookkept now written).id = s.id := by
  unfold Schedule.bookkept
  split <;> rfl

theorem Schedule.bookkept_of_not_mem {now : ℕ} {written : List (ℕ × ℕ)}
    (h : s.id ∉ written.map Prod.fst) : s.bookkept now written = s := by
  have hnone : written.find? (fun r => r.1 = s.id) = none := by
    apply List.find?_eq_none.2
    intro e he
    have hne : e.1 ≠ s.id := fun heq => h (List.mem_map.2 ⟨e, he, heq⟩)
    simpa using hne
  rw [Schedule.bookkept, hnone]

theorem Schedule.bookkept_of_mem {now : ℕ} {written : List (ℕ × ℕ)}
    (h : s.id ∈ written.map Prod.fst) :
    ∃ e ∈ written, e.1 = s.id ∧ (s.bookkept now written).nextRunAt = some e.2 := by
  obtain ⟨e, he, heq⟩ := List.mem_map.1 h
  cases hfind : written.find? fun r => r.1 = s.id with
  | none => exact absurd heq (by simpa using List.find?_eq_none.1 hfind e he)
  | some e' =>
      refine ⟨e', List.mem_of_find?_eq_some hfind, by simpa using List.find?_some hfind, ?_⟩
      rw [Schedule.bookkept, hfind]

theorem Round.bookkept_ids (r : Round) (schedules : List Schedule) :
    (r.bookkept schedules).map (·.id) = schedules.map (·.id) := by
  rw [Round.bookkept, List.map_map]
  apply List.map_congr_left
  intro s _
  exact s.bookkept_id r.now r.written

theorem Round.mem_bookkept (hs : s ∈ schedules) (h : s.id ∉ r.written.map Prod.fst) :
    s ∈ r.bookkept schedules :=
  List.mem_map.2 ⟨s, hs, Schedule.bookkept_of_not_mem h⟩

/-- A schedule that the round has written comes out past the round's instant. -/
theorem Round.Sound.advanced_of_mem (hr : r.Sound schedules) (hs : s ∈ schedules)
    (h : s.id ∈ r.written.map Prod.fst) : ∃ s' ∈ r.bookkept schedules, s'.id = s.id ∧
      ∃ n ∈ s'.nextRunAt, r.now < n := by
  obtain ⟨e, he, -, hnext⟩ : ∃ e ∈ r.written, e.1 = s.id ∧
      (s.bookkept r.now r.written).nextRunAt = some e.2 := Schedule.bookkept_of_mem h
  exact ⟨_, List.mem_map.2 ⟨s, hs, rfl⟩, s.bookkept_id r.now r.written, e.2, hnext,
    (hr.written e he).1⟩

theorem Round.Sound.advanced (hr : r.Sound schedules) {id : ℕ}
    (h : id ∈ r.written.map Prod.fst ∨ Advanced schedules id r.now) :
    Advanced (r.bookkept schedules) id r.now := by
  by_cases hwritten : id ∈ r.written.map Prod.fst
  · obtain ⟨e, he, rfl⟩ := List.mem_map.1 hwritten
    obtain ⟨-, s, hs, hid, -⟩ := hr.written e he
    obtain ⟨s', hs', hid', hnext⟩ := hr.advanced_of_mem hs (by rw [hid]; exact hwritten)
    exact ⟨s', hs', hid'.trans hid, hnext⟩
  · obtain ⟨s, hs, rfl, hnext⟩ := h.resolve_left hwritten
    exact ⟨s, Round.mem_bookkept hs hwritten, rfl, hnext⟩

theorem Round.Sound.committed (hr : r.Sound schedules) :
    Round.Sound (r.bookkept schedules) { r with written := [] } where
  dueIds := hr.dueIds
  due s hs := ⟨Round.mem_bookkept (hr.due s hs).1 (hr.due s hs).2, by simp⟩
  dueAt := hr.dueAt
  written := by simp
  started s hs := by
    rcases hr.started s hs with h | h | h
    · exact Or.inl h
    · exact Or.inr (Or.inl h)
    · exact Or.inr (Or.inr (Or.inr (hr.advanced h)))

theorem Round.Sound.write (cron : CronClock) (hr : r.Sound schedules) {due : List Schedule}
    (hdue : r.due = s :: due) : Round.Sound schedules
      { r with due, written := (s.id, cron.next s.cron r.now) :: r.written } where
  dueIds := by
    have hids := hr.dueIds
    rw [hdue, List.map_cons, List.nodup_cons] at hids
    exact hids.2
  due s' hs' := by
    have hids := hr.dueIds
    rw [hdue, List.map_cons, List.nodup_cons] at hids
    obtain ⟨hmem, hnot⟩ := hr.due s' (by rw [hdue]; exact List.mem_cons_of_mem s hs')
    have hne : s'.id ≠ s.id := fun heq => hids.1 (List.mem_map.2 ⟨s', hs', heq⟩)
    exact ⟨hmem, by simpa [hne] using hnot⟩
  dueAt s' hs' := hr.dueAt s' (by rw [hdue]; exact List.mem_cons_of_mem s hs')
  written e he := by
    have hs : s ∈ r.due := by rw [hdue]; exact List.mem_cons_self
    rcases List.mem_cons.1 he with rfl | he
    · exact ⟨cron.later _ _, s, (hr.due s hs).1, rfl, hr.dueAt s hs⟩
    · exact hr.written e he
  started s' hs' := by
    rcases hr.started s' hs' with h | h | h | h
    · rw [hdue] at h
      rcases List.mem_cons.1 h with rfl | h
      · exact Or.inr (Or.inr (Or.inl List.mem_cons_self))
      · exact Or.inl h
    · exact Or.inr (Or.inl h)
    · exact Or.inr (Or.inr (Or.inl (List.mem_cons_of_mem _ h)))
    · exact Or.inr (Or.inr (Or.inr h))

theorem Round.Sound.skip (hr : r.Sound schedules) {due : List Schedule} (hdue : r.due = s :: due) :
    Round.Sound schedules { r with due, skipped := s.id :: r.skipped } where
  dueIds := by
    have hids := hr.dueIds
    rw [hdue, List.map_cons, List.nodup_cons] at hids
    exact hids.2
  due s' hs' := hr.due s' (by rw [hdue]; exact List.mem_cons_of_mem s hs')
  dueAt s' hs' := hr.dueAt s' (by rw [hdue]; exact List.mem_cons_of_mem s hs')
  written := hr.written
  started s' hs' := by
    rcases hr.started s' hs' with h | h | h
    · rw [hdue] at h
      rcases List.mem_cons.1 h with rfl | h
      · exact Or.inr (Or.inl List.mem_cons_self)
      · exact Or.inl h
    · exact Or.inr (Or.inl (List.mem_cons_of_mem _ h))
    · exact Or.inr (Or.inr h)

theorem Round.sound_begin (hids : (schedules.map (·.id)).Nodup) (now : ℕ) :
    Round.Sound schedules
      { now, started := dueSchedules schedules now, due := dueSchedules schedules now } where
  dueIds := hids.sublist (List.filter_sublist.map _)
  due s hs := ⟨List.mem_of_mem_filter hs, by simp⟩
  dueAt s hs := (List.mem_filter.1 hs).2
  written := by simp
  started s hs := Or.inl hs

end Bookkeeping

end IcebergSST
