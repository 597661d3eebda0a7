import IcebergSST.Scheduler

/-!
# Each due occurrence once

Only the replica with the lock has a round under way, so a round finds the rows it saw as
due unchanged when it comes to them, and what it writes moves each of them past its own
instant. A scan launched for an occurrence is launched again only by a round that finds the
row where it was and the source idle.
-/

namespace IcebergSST
namespace SchedulerWorld

variable {ι : Type} [DecidableEq ι] {cron : CronClock} {w w' : SchedulerWorld ι} {i : ι}
  {r r' : Round}
  {s : Schedule} {l : ScheduledLaunch}

structure Kept (w : SchedulerWorld ι) : Prop where
  ids : (w.schedules.map (·.id)).Nodup
  leader : ∀ i, ∀ r ∈ w.rounds i, w.leader = some i
  rounds : ∀ i, ∀ r ∈ w.rounds i, r.Sound w.schedules

omit [DecidableEq ι] in
theorem Kept.round_unique (hw : w.Kept) {j : ι} (hr : r ∈ w.rounds i) (hr' : r' ∈ w.rounds j) :
    i = j ∧ r = r' := by
  have hij : i = j := Option.some.inj ((hw.leader i r hr).symm.trans (hw.leader j r' hr'))
  subst hij
  exact ⟨rfl, Option.mem_unique hr hr'⟩

theorem Kept.of_round (hw : w.Kept) (hr : r ∈ w.rounds i)
    (hids : w'.schedules.map (·.id) = w.schedules.map (·.id)) (hleader : w'.leader = w.leader)
    (hrounds : w'.rounds = Function.update w.rounds i (some r')) (hr' : r'.Sound w'.schedules) :
    w'.Kept := by
  have honly : ∀ j, ∀ r₁ ∈ w'.rounds j, j = i ∧ r₁ = r' := by
    intro j r₁ hr₁
    rw [hrounds] at hr₁
    by_cases hji : j = i
    · rw [hji, Function.update_self] at hr₁
      exact ⟨hji, (Option.some.inj hr₁).symm⟩
    · rw [Function.update_of_ne hji] at hr₁
      exact absurd (hw.round_unique hr₁ hr).1 hji
  refine ⟨hids ▸ hw.ids, fun j r₁ hr₁ => ?_, fun j r₁ hr₁ => ?_⟩
  · rw [hleader, (honly j r₁ hr₁).1]
    exact hw.leader i r hr
  · rw [(honly j r₁ hr₁).2]
    exact hr'

theorem Kept.of_end (hw : w.Kept) (hschedules : w'.schedules = w.schedules)
    (hrounds : w'.rounds = Function.update w.rounds i none)
    (hleader : ∀ j, j ≠ i → w.leader = some j → w'.leader = some j) : w'.Kept := by
  have hother : ∀ j, ∀ r ∈ w'.rounds j, j ≠ i ∧ r ∈ w.rounds j := by
    intro j r hr
    rw [hrounds] at hr
    by_cases hji : j = i
    · rw [hji, Function.update_self] at hr
      cases hr
    · rw [Function.update_of_ne hji] at hr
      exact ⟨hji, hr⟩
  refine ⟨hschedules ▸ hw.ids, fun j r hr => ?_, fun j r hr => ?_⟩
  · exact hleader j (hother j r hr).1 (hw.leader j r (hother j r hr).2)
  · rw [hschedules]
    exact hw.rounds j r (hother j r hr).2

omit [DecidableEq ι] in
theorem Kept.of_eq (hw : w.Kept) (hschedules : w'.schedules = w.schedules)
    (hleader : w'.leader = w.leader) (hrounds : w'.rounds = w.rounds) : w'.Kept := by
  refine ⟨hschedules ▸ hw.ids, fun j r hr => ?_, fun j r hr => ?_⟩
  · rw [hleader]
    exact hw.leader j r (hrounds ▸ hr)
  · rw [hschedules]
    exact hw.rounds j r (hrounds ▸ hr)

/-- What the launcher makes of the next schedule. -/
inductive Visited (cron : CronClock) (w : SchedulerWorld ι) (i : ι) (r : Round) (s : Schedule)
    (due : List Schedule) : SchedulerWorld ι → Prop
  | raised : Visited cron w i r s due
      { w with rounds := Function.update w.rounds i (some { r with
          due, skipped := s.id :: r.skipped }) }
  | launched (r' : Round) (hlaunches : w.Launches s)
      (hr' : r' = { r with due, written := [(s.id, cron.next s.cron r.now)] } ∨
        r' = { r with due, skipped := s.id :: r.skipped, written := [] }) :
      Visited cron w i r s due
        { w with
          schedules := r.bookkept w.schedules
          active := insert s.sourceId w.active
          launches := ⟨s.id, s.nextRunAt, s.sourceId⟩ :: w.launches
          rounds := Function.update w.rounds i (some r') }
  | declined (hlaunches : w.Launches s = false) : Visited cron w i r s due
      { w with rounds := Function.update w.rounds i (some { r with
          due, written := (s.id, cron.next s.cron r.now) :: r.written }) }

theorem visited_visit (cron : CronClock) (w : SchedulerWorld ι) (i : ι) (r : Round) (s : Schedule)
    (due : List Schedule) (fault : Option LaunchFault) :
    Visited cron w i r s due (w.visit cron i r s due fault) := by
  unfold visit
  dsimp only
  split_ifs with hbefore hlaunches hafter
  · exact .raised
  · exact .launched _ hlaunches (Or.inr rfl)
  · exact .launched _ hlaunches (Or.inl rfl)
  · exact .declined (by simpa using hlaunches)

theorem Kept.visited {due : List Schedule} (hw : w.Kept) (hr : r ∈ w.rounds i)
    (hdue : r.due = s :: due) (h : Visited cron w i r s due w') : w'.Kept := by
  have hsound := hw.rounds i r hr
  cases h with
  | raised => exact hw.of_round hr rfl rfl rfl (hsound.skip hdue)
  | launched r' _ hr' =>
      refine hw.of_round hr (r.bookkept_ids w.schedules) rfl rfl ?_
      rcases hr' with rfl | rfl
      · exact hsound.committed.write cron hdue
      · exact hsound.committed.skip hdue
  | declined _ => exact hw.of_round hr rfl rfl rfl (hsound.write cron hdue)

inductive Stepped (cron : CronClock) (w : SchedulerWorld ι) :
    SchedulerAction ι → SchedulerWorld ι → Prop
  | refused (i : ι) (now : ℕ) : Stepped cron w (.beat i now) w
  | began (i : ι) (now : ℕ) (hleader : w.leader = none) : Stepped cron w (.beat i now)
      { w with
        leader := some i
        rounds := Function.update w.rounds i
          (some { now, started := dueSchedules w.schedules now
                  due := dueSchedules w.schedules now }) }
  | visited {i : ι} {r : Round} {s : Schedule} {due : List Schedule} {w' : SchedulerWorld ι}
      (fault : Option LaunchFault) (hr : r ∈ w.rounds i) (hdue : r.due = s :: due)
      (h : Visited cron w i r s due w') : Stepped cron w (.visit i fault) w'
  | committed {i : ι} {r : Round} (hr : r ∈ w.rounds i) (hdue : r.due = []) :
      Stepped cron w (.commit i)
        { w with
          schedules := r.bookkept w.schedules
          rounds := Function.update w.rounds i (some { r with written := [] }) }
  | released {i : ι} {r : Round} (hr : r ∈ w.rounds i) (hwritten : r.written = []) :
      Stepped cron w (.release i)
        { w with leader := none, rounds := Function.update w.rounds i none }
  | crashed (i : ι) : Stepped cron w (.crash i)
      { w with
        leader := if w.leader = some i then none else w.leader
        rounds := Function.update w.rounds i none }
  | ended (sourceId : ℕ) : Stepped cron w (.scanEnds sourceId)
      { w with active := w.active.erase sourceId }
  | started (sourceId : ℕ) : Stepped cron w (.scanStarts sourceId)
      { w with active := insert sourceId w.active }
  | enabled (sourceId : ℕ) (enabled : Bool) : Stepped cron w (.enableSource sourceId enabled)
      { w with sourceEnabled := Function.update w.sourceEnabled sourceId enabled }

theorem stepped_of_step {a : SchedulerAction ι} (h : step cron w a = some w') :
    Stepped cron w a w' := by
  cases a with
  | beat i now =>
      simp only [step] at h
      split_ifs at h with hfree
      · obtain rfl := Option.some.inj h
        exact .began i now hfree.2
      · obtain rfl := Option.some.inj h
        exact .refused i now
  | visit i fault =>
      simp only [step] at h
      cases hr : w.rounds i with
      | none => simp [hr] at h
      | some r =>
          cases hdue : r.due with
          | nil => simp [hr, hdue] at h
          | cons s due =>
              simp only [hr, hdue] at h
              split_ifs at h
              obtain rfl := Option.some.inj h
              exact .visited fault hr hdue (visited_visit cron w i r s due fault)
  | commit i =>
      simp only [step] at h
      cases hr : w.rounds i with
      | none => simp [hr] at h
      | some r =>
          simp only [hr] at h
          split_ifs at h with hdue
          obtain rfl := Option.some.inj h
          exact .committed hr hdue
  | release i =>
      simp only [step] at h
      cases hr : w.rounds i with
      | none => simp [hr] at h
      | some r =>
          simp only [hr] at h
          split_ifs at h with hdone
          obtain rfl := Option.some.inj h
          exact .released hr hdone.2
  | crash i =>
      obtain rfl := Option.some.inj h
      exact .crashed i
  | scanEnds sourceId =>
      obtain rfl := Option.some.inj h
      exact .ended sourceId
  | scanStarts sourceId =>
      obtain rfl := Option.some.inj h
      exact .started sourceId
  | enableSource sourceId enabled =>
      obtain rfl := Option.some.inj h
      exact .enabled sourceId enabled

theorem Kept.step {a : SchedulerAction ι} (hw : w.Kept) (h : step cron w a = some w') :
    w'.Kept := by
  cases stepped_of_step h with
  | refused i now => exact hw
  | began i now hleader =>
      have hnone : ∀ j, w.rounds j = none := by
        intro j
        cases hr : w.rounds j with
        | none => rfl
        | some r =>
            have hj := hw.leader j r hr
            rw [hleader] at hj
            cases hj
      refine ⟨hw.ids, fun j r hr => ?_, fun j r hr => ?_⟩ <;> by_cases hji : j = i
      · rw [hji]
      · simp [Function.update_of_ne hji, hnone j] at hr
      · rw [hji] at hr
        obtain rfl : _ = r := by simpa using hr
        exact Round.sound_begin hw.ids now
      · simp [Function.update_of_ne hji, hnone j] at hr
  | visited fault hr hdue h => exact hw.visited hr hdue h
  | committed hr hdue =>
      exact hw.of_round hr (Round.bookkept_ids _ w.schedules) rfl rfl
        (hw.rounds _ _ hr).committed
  | released hr hwritten =>
      refine hw.of_end rfl rfl fun j hji hj => ?_
      exact absurd (Option.some.inj (hj.symm.trans (hw.leader _ _ hr))) hji
  | crashed i =>
      refine hw.of_end rfl rfl fun j hji hj => ?_
      simp [hj, hji]
  | ended sourceId => exact hw.of_eq rfl rfl rfl
  | started sourceId => exact hw.of_eq rfl rfl rfl
  | enabled sourceId enabled => exact hw.of_eq rfl rfl rfl

/-- A round that completes has moved every schedule that was due past its own instant, apart
from those whose launcher raised. -/
theorem Kept.commit (hw : w.Kept) (hr : r ∈ w.rounds i)
    (h : SchedulerWorld.step cron w (.commit i) = some w') :
    ∀ s ∈ r.started, s.id ∉ r.skipped → Advanced w'.schedules s.id r.now := by
  intro s hs hskipped
  cases stepped_of_step h with
  | committed hr' hdue =>
      obtain rfl := Option.mem_unique hr hr'
      have hsound := hw.rounds i r hr
      rcases hsound.started s hs with h | h | h
      · rw [hdue] at h
        cases h
      · exact absurd h hskipped
      · exact hsound.advanced h

/-- The row of the schedule is where it was when the scan was launched. -/
def Stays (schedules : List Schedule) (l : ScheduledLaunch) : Prop :=
  ∃ s ∈ schedules, s.id = l.scheduleId ∧ s.sourceId = l.sourceId ∧ s.nextRunAt = l.occurrence

structure Once (w : SchedulerWorld ι) : Prop where
  keys : (w.launches.map (·.key)).Nodup
  launched : ∀ l ∈ w.launches, MovedOn w.schedules l ∨
    Stays w.schedules l ∧ ((∃ i, ∃ r ∈ w.rounds i, PendingIn r l) ∨ l.sourceId ∈ w.active)

/-- What a round has written is still, in the rows, what was due when it began. -/
theorem le_now_of_written {schedules : List Schedule} (hr : r.Sound schedules)
    (hids : (schedules.map (·.id)).Nodup) (hs : s ∈ schedules)
    (hwritten : s.id ∈ r.written.map Prod.fst) : ∀ v ∈ s.nextRunAt, v ≤ r.now := by
  intro v hv
  obtain ⟨e, he, heq⟩ := List.mem_map.1 hwritten
  obtain ⟨-, s₀, hs₀, hid₀, hdue⟩ := hr.written e he
  obtain rfl : s₀ = s := List.inj_on_of_nodup_map hids hs₀ hs (hid₀.trans heq)
  simp only [Schedule.DueAt, Option.mem_def.1 hv, Option.all_some, Bool.and_eq_true,
    decide_eq_true_eq] at hdue
  exact hdue.2

theorem MovedOn.bookkept {schedules : List Schedule} (hr : r.Sound schedules)
    (hids : (schedules.map (·.id)).Nodup) (h : MovedOn schedules l) :
    MovedOn (r.bookkept schedules) l := by
  obtain ⟨s, hs, hid, n, hn, hlt⟩ := h
  by_cases hwritten : s.id ∈ r.written.map Prod.fst
  · obtain ⟨s', hs', hid', n', hn', hlt'⟩ := hr.advanced_of_mem hs hwritten
    refine ⟨s', hs', hid'.trans hid, n', hn', fun v hv => ?_⟩
    have hle := le_now_of_written hr hids hs hwritten n hn
    have hv' := hlt v hv
    omega
  · exact ⟨s, Round.mem_bookkept hs hwritten, hid, n, hn, hlt⟩

/-- The bookkeeping of a round moves on what is pending in it, and leaves the rest where it
is. -/
theorem Stays.bookkept {schedules : List Schedule} (hr : r.Sound schedules)
    (hids : (schedules.map (·.id)).Nodup) (h : Stays schedules l) :
    MovedOn (r.bookkept schedules) l ∨ ¬ PendingIn r l ∧ Stays (r.bookkept schedules) l := by
  obtain ⟨s, hs, hid, hsource, hoccurrence⟩ := h
  by_cases hwritten : s.id ∈ r.written.map Prod.fst
  · obtain ⟨s', hs', hid', n, hn, hlt⟩ := hr.advanced_of_mem hs hwritten
    refine Or.inl ⟨s', hs', hid'.trans hid, n, hn, fun v hv => ?_⟩
    have hle := le_now_of_written hr hids hs hwritten v (hoccurrence ▸ hv)
    omega
  · refine Or.inr ⟨?_, s, Round.mem_bookkept hs hwritten, hid, hsource, hoccurrence⟩
    rw [PendingIn, ← hid]
    exact hwritten

omit [DecidableEq ι] in
/-- One launch, in a world where the row stays and the source is busy or has moved on. -/
theorem Once.fresh (hw : w.Once) (hkept : w.Kept) (hr : r ∈ w.rounds i) (hs : s ∈ r.due)
    (hlaunches : w.Launches s) :
    (⟨s.id, s.nextRunAt, s.sourceId⟩ : ScheduledLaunch).key ∉ w.launches.map (·.key) := by
  intro hmem
  obtain ⟨l, hl, hkey⟩ := List.mem_map.1 hmem
  simp only [ScheduledLaunch.key, Prod.mk.injEq] at hkey
  obtain ⟨hid, hoccurrence⟩ := hkey
  obtain ⟨hrow, hnot⟩ := (hkept.rounds i r hr).due s hs
  simp only [Launches, Bool.and_eq_true, decide_eq_true_eq] at hlaunches
  have heq : ∀ s₀ ∈ w.schedules, s₀.id = l.scheduleId → s₀ = s := fun s₀ hs₀ h =>
    List.inj_on_of_nodup_map hkept.ids hs₀ hrow (h.trans hid)
  rcases hw.launched l hl with ⟨s₀, hs₀, hid₀, n, hn, hlt⟩ | ⟨⟨s₀, hs₀, hid₀, hsource, -⟩, h⟩
  · obtain rfl := heq s₀ hs₀ hid₀
    exact absurd (hlt n (hoccurrence ▸ hn)) (lt_irrefl n)
  · obtain rfl := heq s₀ hs₀ hid₀
    rcases h with ⟨j, r', hr', hpending⟩ | hbusy
    · obtain ⟨-, rfl⟩ := hkept.round_unique hr hr'
      rw [PendingIn, hid] at hpending
      exact hnot hpending
    · rw [← hsource] at hbusy
      exact hlaunches.2 hbusy

omit [DecidableEq ι] in
theorem Once.bookkept (hw : w.Once) (hkept : w.Kept) (hr : r ∈ w.rounds i)
    (hl : l ∈ w.launches) : MovedOn (r.bookkept w.schedules) l ∨
      Stays (r.bookkept w.schedules) l ∧ l.sourceId ∈ w.active := by
  have hsound := hkept.rounds i r hr
  rcases hw.launched l hl with h | ⟨hstays, h⟩
  · exact Or.inl (h.bookkept hsound hkept.ids)
  · rcases hstays.bookkept hsound hkept.ids with hmoved | ⟨hpending, hstays'⟩
    · exact Or.inl hmoved
    · refine Or.inr ⟨hstays', ?_⟩
      rcases h with ⟨j, r', hr', hpending'⟩ | hbusy
      · obtain ⟨-, rfl⟩ := hkept.round_unique hr hr'
        exact absurd hpending' hpending
      · exact hbusy

omit [DecidableEq ι] in
theorem Once.of_same (hw : w.Once) (hlaunches : w'.launches = w.launches)
    (hschedules : w'.schedules = w.schedules)
    (h : ∀ l ∈ w.launches, ¬ MovedOn w.schedules l →
      (∃ i, ∃ r ∈ w.rounds i, PendingIn r l) ∨ l.sourceId ∈ w.active →
      (∃ i, ∃ r ∈ w'.rounds i, PendingIn r l) ∨ l.sourceId ∈ w'.active) : w'.Once where
  keys := hlaunches ▸ hw.keys
  launched l hl := by
    rw [hlaunches] at hl
    rw [hschedules]
    by_cases hmoved : MovedOn w.schedules l
    · exact Or.inl hmoved
    · obtain ⟨hstays, hor⟩ := (hw.launched l hl).resolve_left hmoved
      exact Or.inr ⟨hstays, h l hl hmoved hor⟩

theorem Once.visited {due : List Schedule} (hw : w.Once) (hkept : w.Kept) (hr : r ∈ w.rounds i)
    (hdue : r.due = s :: due) (h : Visited cron w i r s due w') : w'.Once := by
  have hs : s ∈ r.due := by
    rw [hdue]
    exact List.mem_cons_self
  -- a round whose writes only grow keeps what is pending
  have hgrow : ∀ (r' : Round) (l : ScheduledLaunch), r.written ⊆ r'.written →
      (∃ j, ∃ r₁ ∈ w.rounds j, PendingIn r₁ l) ∨ l.sourceId ∈ w.active →
      (∃ j, ∃ r₁ ∈ Function.update w.rounds i (some r') j, PendingIn r₁ l) ∨
        l.sourceId ∈ w.active := by
    rintro r' l hsub (⟨j, r₁, hr₁, hpending⟩ | hbusy)
    · obtain ⟨rfl, rfl⟩ := hkept.round_unique hr hr₁
      exact Or.inl ⟨i, r', by simp, List.map_subset _ hsub hpending⟩
    · exact Or.inr hbusy
  cases h with
  | raised => exact hw.of_same rfl rfl fun l _ _ hl => hgrow _ l (List.Subset.refl _) hl
  | declined _ => exact hw.of_same rfl rfl fun l _ _ hl => hgrow _ l (List.subset_cons_self _ _) hl
  | launched r' hlaunches _ =>
      constructor
      · exact List.nodup_cons.2 ⟨hw.fresh hkept hr hs hlaunches, hw.keys⟩
      · intro l hl
        rcases List.mem_cons.1 hl with rfl | hl
        · obtain ⟨hrow, hnot⟩ := (hkept.rounds i r hr).due s hs
          exact Or.inr ⟨⟨s, Round.mem_bookkept hrow hnot, rfl, rfl, rfl⟩,
            Or.inr (Finset.mem_insert_self _ _)⟩
        · rcases hw.bookkept hkept hr hl with h | ⟨hstays, hbusy⟩
          · exact Or.inl h
          · exact Or.inr ⟨hstays, Or.inr (Finset.mem_insert_of_mem hbusy)⟩

theorem Once.step {a : SchedulerAction ι} (hw : w.Once) (hkept : w.Kept) (ha : w.StaysBusy a)
    (h : SchedulerWorld.step cron w a = some w') : w'.Once := by
  cases stepped_of_step h with
  | refused i now => exact hw
  | began i now hleader =>
      refine hw.of_same rfl rfl ?_
      rintro l - - (⟨j, r, hr, -⟩ | hbusy)
      · have hj := hkept.leader j r hr
        rw [hleader] at hj
        cases hj
      · exact Or.inr hbusy
  | visited fault hr hdue h => exact hw.visited hkept hr hdue h
  | committed hr hdue =>
      constructor
      · exact hw.keys
      · intro l hl
        rcases hw.bookkept hkept hr hl with h | ⟨hstays, hbusy⟩
        · exact Or.inl h
        · exact Or.inr ⟨hstays, Or.inr hbusy⟩
  | released hr hwritten =>
      refine hw.of_same rfl rfl ?_
      rintro l - - (⟨j, r₁, hr₁, hpending⟩ | hbusy)
      · obtain ⟨-, rfl⟩ := hkept.round_unique hr hr₁
        rw [PendingIn, hwritten] at hpending
        cases hpending
      · exact Or.inr hbusy
  | crashed i =>
      refine hw.of_same rfl rfl ?_
      rintro l hl hmoved (⟨j, r, hr, hpending⟩ | hbusy)
      · by_cases hji : j = i
        · subst hji
          exact Or.inr (ha r hr l hl hpending hmoved)
        · exact Or.inl ⟨j, r, by simpa [Function.update_of_ne hji] using hr, hpending⟩
      · exact Or.inr hbusy
  | ended sourceId =>
      refine hw.of_same rfl rfl ?_
      rintro l hl hmoved (hpending | hbusy)
      · exact Or.inl hpending
      · by_cases hsource : l.sourceId = sourceId
        · exact Or.inl (ha l hl hsource hmoved)
        · exact Or.inr (Finset.mem_erase.2 ⟨hsource, hbusy⟩)
  | started sourceId =>
      exact hw.of_same rfl rfl fun l _ _ hl => hl.imp id (Finset.mem_insert_of_mem)
  | enabled sourceId enabled => exact hw.of_same rfl rfl fun l _ _ hl => hl

end SchedulerWorld
end IcebergSST
