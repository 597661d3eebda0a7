import IcebergSST.Library.Machine
import IcebergSST.Cursors

/-!
# The windows of a Jira project

Discovery probes the issue edited last, closes its window a minute after it, and stores
the minute before that end as the watermark of the next scan. A complete scan commits the
watermark, and the scan after it discovers one `updated` window from there on.

Instants are milliseconds of one clock and a JQL literal is a minute of it. The server
answers a query with what it selects and the fields that were asked for. An issue carries
the number of its latest edit among all edits of the project; no code reads that number.
-/

namespace IcebergSST.Jira

inductive DateField
  | created
  | updated
  deriving DecidableEq, Repr

structure Issue where
  created : ℕ
  updated : ℕ
  edit : ℕ
  deriving DecidableEq, Repr

def Issue.date (i : Issue) : DateField → ℕ
  | .created => i.created
  | .updated => i.updated

def minuteOf (t : ℕ) : ℕ := t / 60000

/-- The dates an answer carries of an issue. -/
abbrev Answer := DateField → Option ℕ

def Issue.answer (i : Issue) (fields : List DateField) : Answer :=
  fun f => if f ∈ fields then some (i.date f) else none

/-- The first issue matching a query, which selects `i`. -/
def searchOne (i : Option Issue) : Option Answer := i.map (·.answer [.created])

def fieldAt (issue : Answer) (f : DateField) : Option ℕ := (issue f).map minuteOf

def isProjectKey (s : String) : Bool :=
  match s.toList with
  | [] => false
  | c :: cs => c.isAlpha && cs.length ≤ 254 && cs.all fun c => c.isAlphanum || c = '_'

structure ProjectKey where
  value : String
  wellFormed : isProjectKey value

/-- Where this scan's window ends, and where the next one should start. -/
def cursorBound (key : ProjectKey) (newest : Option Answer) : Except String (Option (ℕ × ℕ)) :=
  match newest with
  | none => .ok none
  | some newest =>
      match (fieldAt newest .updated).or (fieldAt newest .created) with
      | none => .error ("Jira returned an unreadable updated date for project " ++ key.value)
      | some edited => .ok (some (edited + 1, edited))

/-- A half-open range over one date field, in minutes. -/
structure Window where
  start : Option ℕ
  stop : Option ℕ
  field : DateField := .created
  deriving DecidableEq, Repr

def bucketLadder : List ℕ := [7, 30, 90, 365, 1825, 3650]

def maxWindowsPerProject : ℕ := 64

def ceilDiv (numerator denominator : ℕ) : ℕ := (numerator + denominator - 1) / denominator

/-- The first width of the ladder that fits the window budget, or else the last one. -/
def bucketWidth (span : ℕ) : ℕ :=
  (bucketLadder.find? fun days => ceilDiv span days ≤ maxWindowsPerProject).getD 3650

def minutesOfDay : ℕ := 1440

/-- The calendar days a bucket ends at. A day is passed at each turn, so as many turns as
there are days are enough. -/
def edges (width endDay : ℕ) : ℕ → ℕ → List ℕ
  | 0, _ => []
  | turns + 1, cursor =>
      if cursor < endDay then
        min (cursor + width) endDay :: edges width endDay turns (min (cursor + width) endDay)
      else []

/-- Consecutive windows with these ends, the first one open at the bottom. -/
def windowsBetween (pinned : ℕ) : Option ℕ → List ℕ → List Window
  | _, [] => []
  | start, [_] => [{ start, stop := some pinned }]
  | start, edge :: rest =>
      { start, stop := some (edge * minutesOfDay) } ::
        windowsBetween pinned (some (edge * minutesOfDay)) rest

/-- `created` ranges covering the project, from its oldest and newest issue. -/
def createdWindows (key : ProjectKey) (oldest newest : Option Answer) :
    Except String (List Window) :=
  match oldest with
  | none => .ok [{ start := none, stop := none }]
  | some oldest =>
      match fieldAt oldest .created, fieldAt (newest.getD oldest) .created with
      | some first, some last =>
          let pinned := last + 1
          let startDay := first / minutesOfDay
          let endDay := pinned / minutesOfDay + 1
          let width := bucketWidth (max (endDay - startDay) 1)
          .ok (windowsBetween pinned none (edges width endDay (endDay - startDay) startDay))
      | _, _ => .error ("Jira returned an unreadable created date for project " ++ key.value)

/-- The part of the project in scope: what was edited since the watermark, or all of it. -/
def windows (key : ProjectKey) (since bound : Option ℕ) (oldest newest : Option Answer) :
    Except String (List Window) :=
  match since, bound with
  | some since, some bound =>
      if bound ≤ since then .ok []
      else .ok [{ start := some since, stop := some bound, field := .updated }]
  | _, _ => createdWindows key oldest newest

def watermark (positions : List (SourceCursor ℕ)) (key : ProjectKey) : Option ℕ :=
  watermarkOf positions key.value

/-- What one discovery found out, and when it probed: after which edit, and at what time. -/
structure Discovery where
  probe : ℕ
  probedAt : ℕ
  since : Option ℕ
  bound : Option (ℕ × ℕ)
  windows : List Window
  deriving DecidableEq, Repr

def fetchTask (key : ProjectKey) (resumeAt : Option ℕ) : ScanTask Unit (CursorProposal ℕ) :=
  completedFetch key.value "1" resumeAt

def Discovery.resumeAt (d : Discovery) : Option ℕ := d.bound.map Prod.snd

def Discovery.tasks (key : ProjectKey) (d : Discovery) : List (ScanTask Unit (CursorProposal ℕ)) :=
  d.windows.map fun _ => fetchTask key d.resumeAt

/-- `committed` is the discovery of the last scan whose watermark was stored. -/
structure Project where
  clock : ℕ := 0
  edits : ℕ := 0
  issues : List Issue := []
  cursors : List (SourceCursor ℕ) := []
  active : Option Discovery := none
  committed : Option Discovery := none

/-- In a discovery, `edited` is the issue the probe selects; the two queries for the
`created` bounds come later, when the project may have moved on. -/
inductive ProjectAction
  | tick (ms : ℕ)
  | create
  | edit (k : ℕ)
  | discover (mode : ScanMode) (edited : Option Issue) (oldest newest : Option Issue)
  | complete (scan : SourceScan)
  | abandon
  | retire (reason : CursorInvalidationReason)

namespace Project

def EditedLast (s : Project) : Option Issue → Prop
  | none => s.issues = []
  | some n => n ∈ s.issues ∧ ∀ i ∈ s.issues, minuteOf i.updated ≤ minuteOf n.updated

instance (s : Project) : ∀ n, Decidable (s.EditedLast n)
  | none => inferInstanceAs (Decidable (s.issues = []))
  | some n => inferInstanceAs (Decidable (n ∈ s.issues ∧ ∀ i ∈ s.issues, _))

def create (s : Project) : Project :=
  { s with
    edits := s.edits + 1
    issues := s.issues ++ [{ created := s.clock, updated := s.clock, edit := s.edits + 1 }] }

def edit (s : Project) (k : ℕ) : Project :=
  { s with
    edits := s.edits + 1
    issues := s.issues.modify k fun i => { i with updated := s.clock, edit := s.edits + 1 } }

def discover (key : ProjectKey) (s : Project) (mode : ScanMode)
    (edited oldest newest : Option Issue) : Except String Discovery := do
  let bound ← cursorBound key (searchOne edited)
  let since := watermark (positionsForScan s.cursors mode) key
  let windows ← windows key since (bound.map Prod.fst) (searchOne oldest) (searchOne newest)
  return { probe := s.edits, probedAt := s.clock, since, bound, windows }

def complete (key : ProjectKey) (s : Project) (scan : SourceScan) (d : Discovery) : Project :=
  { s with
    cursors := commitProposals s.cursors scan (d.tasks key) s.clock
    active := none
    committed := if (d.tasks key).any (·.cursorProposal.isSome) then some d else s.committed }

def step (key : ProjectKey) (s : Project) : ProjectAction → Option Project
  | .tick ms => some { s with clock := s.clock + ms }
  | .create => some s.create
  | .edit k => some (s.edit k)
  | .discover mode edited oldest newest =>
      if s.active = none ∧ s.EditedLast edited then
        match s.discover key mode edited oldest newest with
        | .ok d => some { s with active := some d }
        | .error _ => none
      else none
  | .complete scan => s.active.map (s.complete key scan)
  | .abandon => some { s with active := none }
  | .retire reason => some { s with cursors := invalidate s.cursors reason s.clock }

def IsInitial (key : ProjectKey) (s : Project) : Prop :=
  s.issues = [] ∧ s.active = none ∧ s.committed = none ∧ ∀ c ∈ s.cursors, c.scope ≠ key.value

end Project

theorem isProjectKey_empty : isProjectKey "" = false := by decide

theorem ProjectKey.value_ne_empty (key : ProjectKey) : key.value ≠ "" := by
  intro h
  have hkey := key.wellFormed
  rw [h, isProjectKey_empty] at hkey
  cases hkey

def Window.Contains (w : Window) (i : Issue) : Prop :=
  (∀ m ∈ w.start, m ≤ minuteOf (i.date w.field)) ∧ ∀ m ∈ w.stop, minuteOf (i.date w.field) < m

instance (w : Window) (i : Issue) : Decidable (w.Contains i) :=
  inferInstanceAs (Decidable ((∀ m ∈ w.start, _) ∧ ∀ m ∈ w.stop, _))

theorem minuteOf_mono {s t : ℕ} (h : s ≤ t) : minuteOf s ≤ minuteOf t := Nat.div_le_div_right h

theorem bucketWidth_pos (span : ℕ) : 0 < bucketWidth span := by
  unfold bucketWidth
  cases h : bucketLadder.find? fun days => ceilDiv span days ≤ maxWindowsPerProject with
  | none => exact Nat.succ_pos _
  | some days =>
      have hall : ∀ days ∈ bucketLadder, 0 < days := by decide
      exact hall days (List.mem_of_find?_eq_some h)

/-- The loop over the edges ends at the last day, not at the end of its turns. -/
theorem edges_getLast {width endDay turns cursor : ℕ} (hwidth : 0 < width)
    (hturns : endDay - cursor ≤ turns) (h : cursor < endDay) :
    (edges width endDay turns cursor).getLast? = some endDay := by
  induction turns generalizing cursor with
  | zero => omega
  | succ turns ih =>
      unfold edges
      rw [if_pos h]
      by_cases hnext : min (cursor + width) endDay < endDay
      · rw [List.getLast?_cons, ih (by omega) hnext, Option.getD_some]
      · have hlast : edges width endDay turns (min (cursor + width) endDay) = [] := by
          cases turns with
          | zero => rfl
          | succ turns => exact if_neg hnext
        have hmin : min (cursor + width) endDay = endDay := by omega
        rw [hlast, hmin, List.getLast?_singleton]

theorem windowsBetween_cover {pinned : ℕ} {start : Option ℕ} {ends : List ℕ} {i : Issue}
    (hends : ends ≠ []) (hstart : ∀ m ∈ start, m ≤ minuteOf i.created)
    (hpinned : minuteOf i.created < pinned) :
    ∃ w ∈ windowsBetween pinned start ends, w.Contains i := by
  induction ends generalizing start with
  | nil => exact absurd rfl hends
  | cons edge rest ih =>
      cases rest with
      | nil =>
          exact ⟨_, List.mem_singleton_self _, hstart,
            fun m hm => Option.some.inj hm ▸ hpinned⟩
      | cons next rest =>
          by_cases hedge : minuteOf i.created < edge * minutesOfDay
          · exact ⟨_, List.mem_cons_self, hstart, fun m hm => Option.some.inj hm ▸ hedge⟩
          · obtain ⟨w, hw, hcontains⟩ := ih (List.cons_ne_nil _ _)
              (fun m hm => Option.some.inj hm ▸ not_lt.1 hedge)
            exact ⟨w, List.mem_cons_of_mem _ hw, hcontains⟩

/-- Without a watermark, every issue created up to the newest one is in a window. -/
theorem createdWindows_cover {key : ProjectKey} {oldest newest i : Issue} {ws : List Window}
    (h : createdWindows key (searchOne (some oldest)) (searchOne (some newest)) = .ok ws)
    (holdest : oldest.created ≤ newest.created) (hi : i.created ≤ newest.created) :
    ∃ w ∈ ws, w.Contains i := by
  have hminutes := minuteOf_mono holdest
  have hws := Except.ok.inj h
  rw [← hws]
  apply windowsBetween_cover
  · have hlt : minuteOf oldest.created / minutesOfDay <
        (minuteOf newest.created + 1) / minutesOfDay + 1 :=
      Nat.lt_succ_of_le (Nat.div_le_div_right (by omega))
    intro hnil
    have hlast :=
      (edges_getLast (bucketWidth_pos _) le_rfl hlt).symm.trans (congrArg List.getLast? hnil)
    cases hlast
  · exact fun m hm => by cases hm
  · exact Nat.lt_succ_of_le (minuteOf_mono hi)

/-- The probe sees the `created` date alone, so both ends come from it. -/
theorem cursorBound_searchOne (key : ProjectKey) (n : Issue) :
    cursorBound key (searchOne (some n)) =
      .ok (some (minuteOf n.created + 1, minuteOf n.created)) := rfl

namespace Project

structure Placed (s : Project) (d : Discovery) : Prop where
  probe : d.probe ≤ s.edits
  probedAt : d.probedAt ≤ s.clock
  seen : ∀ i ∈ s.issues, i.edit ≤ d.probe → i.updated ≤ d.probedAt
  later : ∀ i ∈ s.issues, d.probe < i.edit → d.probedAt ≤ i.updated
  resumeAt : ∀ m ∈ d.resumeAt, m ≤ minuteOf d.probedAt

structure Sound (key : ProjectKey) (s : Project) : Prop where
  dates : ∀ i ∈ s.issues, i.created ≤ i.updated ∧ i.updated ≤ s.clock
  edits : ∀ i ∈ s.issues, i.edit ≤ s.edits
  active : ∀ d ∈ s.active, s.Placed d
  committed : ∀ d ∈ s.committed, s.Placed d
  cursors : ∀ c ∈ s.cursors, c.scope = key.value → c.Live →
    ∃ d ∈ s.committed, d.resumeAt = some c.position.position

variable {key : ProjectKey} {s s' : Project}

/-- What any action does to the clock and the issues: an issue is as before, or was just
written. -/
structure Moves (s s' : Project) : Prop where
  clock : s.clock ≤ s'.clock
  edits : s.edits ≤ s'.edits
  issues : ∀ i ∈ s'.issues, i ∈ s.issues ∨ i.updated = s'.clock ∧ i.edit = s'.edits ∧
    s.edits < i.edit ∧ (i.created = s'.clock ∨ ∃ old ∈ s.issues, i.created = old.created)

theorem Moves.of_issues_eq (hclock : s.clock ≤ s'.clock) (hedits : s'.edits = s.edits)
    (hissues : s'.issues = s.issues) : s.Moves s' :=
  ⟨hclock, hedits.ge, fun _ hi => Or.inl (hissues ▸ hi)⟩

theorem moves_create (s : Project) : s.Moves s.create := by
  refine ⟨le_rfl, Nat.le_succ _, fun i hi => ?_⟩
  rcases List.mem_append.1 hi with hold | hnew
  · exact Or.inl hold
  · rw [List.mem_singleton.1 hnew]
    exact Or.inr ⟨rfl, rfl, Nat.lt_succ_self _, Or.inl rfl⟩

theorem moves_edit (s : Project) (k : ℕ) : s.Moves (s.edit k) := by
  refine ⟨le_rfl, Nat.le_succ _, fun i hi => ?_⟩
  obtain ⟨j, hj⟩ := List.mem_iff_getElem?.1 hi
  unfold edit at hj
  rw [List.getElem?_modify] at hj
  obtain ⟨old, hold, heq⟩ := Option.map_eq_some_iff.1 hj
  have hmem := List.mem_of_getElem? hold
  by_cases hk : k = j
  · rw [if_pos hk] at heq
    rw [← heq]
    exact Or.inr ⟨rfl, rfl, Nat.lt_succ_self _, Or.inr ⟨old, hmem, rfl⟩⟩
  · rw [if_neg hk] at heq
    exact Or.inl (heq ▸ hmem)

theorem discover_cases {mode : ScanMode} {edited oldest newest : Option Issue}
    (h : step key s (.discover mode edited oldest newest) = some s') :
    s.EditedLast edited ∧ ∃ d, s.discover key mode edited oldest newest = .ok d ∧
      s' = { s with active := some d } := by
  simp only [step] at h
  split_ifs at h with hguard
  cases hd : s.discover key mode edited oldest newest with
  | error e => rw [hd] at h; cases h
  | ok d => rw [hd] at h; exact ⟨hguard.2, d, rfl, (Option.some.inj h).symm⟩

theorem complete_cases {scan : SourceScan} (h : step key s (.complete scan) = some s') :
    ∃ d, s.active = some d ∧ s' = s.complete key scan d := by
  obtain ⟨d, hd, heq⟩ := Option.map_eq_some_iff.1 h
  exact ⟨d, hd, heq.symm⟩

theorem step_moves {a : ProjectAction} (h : step key s a = some s') : s.Moves s' := by
  cases a with
  | tick ms => exact Option.some.inj h ▸ .of_issues_eq (Nat.le_add_right _ _) rfl rfl
  | create => exact Option.some.inj h ▸ moves_create s
  | edit k => exact Option.some.inj h ▸ moves_edit s k
  | discover mode edited oldest newest =>
      obtain ⟨-, d, -, rfl⟩ := discover_cases h
      exact .of_issues_eq le_rfl rfl rfl
  | complete scan =>
      obtain ⟨d, -, rfl⟩ := complete_cases h
      exact .of_issues_eq le_rfl rfl rfl
  | abandon => exact Option.some.inj h ▸ .of_issues_eq le_rfl rfl rfl
  | retire reason => exact Option.some.inj h ▸ .of_issues_eq le_rfl rfl rfl

theorem Placed.moves {d : Discovery} (hd : s.Placed d) (h : s.Moves s') : s'.Placed d := by
  refine ⟨hd.probe.trans h.edits, hd.probedAt.trans h.clock, fun i hi hseen => ?_,
    fun i hi hlater => ?_, hd.resumeAt⟩
  · rcases h.issues i hi with hold | ⟨-, -, hnew, -⟩
    · exact hd.seen i hold hseen
    · exact absurd (hseen.trans hd.probe) (not_le.2 hnew)
  · rcases h.issues i hi with hold | ⟨hnow, -⟩
    · exact hd.later i hold hlater
    · rw [hnow]
      exact hd.probedAt.trans h.clock

theorem discover_eq {mode : ScanMode} {edited oldest newest : Option Issue} {d : Discovery}
    (h : s.discover key mode edited oldest newest = .ok d) :
    d.probe = s.edits ∧ d.probedAt = s.clock ∧
      d.since = watermark (positionsForScan s.cursors mode) key ∧
      d.bound = edited.map (fun n => (minuteOf n.created + 1, minuteOf n.created)) ∧
      windows key d.since (d.bound.map Prod.fst) (searchOne oldest) (searchOne newest) =
        .ok d.windows := by
  have hbound : cursorBound key (searchOne edited) =
      .ok (edited.map fun n => (minuteOf n.created + 1, minuteOf n.created)) := by
    cases edited with
    | none => rfl
    | some n => exact cursorBound_searchOne key n
  unfold discover at h
  rw [hbound] at h
  cases hw : windows key (watermark (positionsForScan s.cursors mode) key)
      ((edited.map fun n => (minuteOf n.created + 1, minuteOf n.created)).map Prod.fst)
      (searchOne oldest) (searchOne newest) with
  | error e =>
      simp only [bind, Except.bind, hw] at h
      cases h
  | ok ws =>
      simp only [bind, Except.bind, hw, pure, Except.pure] at h
      cases h
      exact ⟨rfl, rfl, rfl, rfl, hw⟩

theorem position_of_mem_commitProposals {scan : SourceScan} {now : ℕ} {d : Discovery}
    {cursors : List (SourceCursor ℕ)} {c : SourceCursor ℕ}
    (hc : c ∈ commitProposals cursors scan (d.tasks key) now) (hscope : c.scope = key.value) :
    c ∈ cursors ∧ (d.tasks key = [] ∨ d.resumeAt = none) ∨
      ¬ (d.tasks key = [] ∨ d.resumeAt = none) ∧ d.resumeAt = some c.position.position := by
  have hversion : ("1" : String) ≠ "" := by decide
  have htasks : ∀ t ∈ d.tasks key, t = completedFetch key.value "1" d.resumeAt := by
    intro t ht
    obtain ⟨_, _, rfl⟩ := List.mem_map.1 ht
    rfl
  exact IcebergSST.position_of_mem_commitProposals key.value_ne_empty hversion htasks hc hscope

theorem any_tasks_iff (d : Discovery) : (d.tasks key).any (·.cursorProposal.isSome) ↔
    ¬ (d.tasks key = [] ∨ d.resumeAt = none) := by
  unfold Discovery.tasks
  cases d.windows with
  | nil => simp
  | cons w ws => cases d.resumeAt with
    | none => simp [fetchTask, completedFetch]
    | some m => simp [fetchTask, completedFetch]

theorem sound_of_isInitial (h : s.IsInitial key) : s.Sound key := by
  obtain ⟨hissues, hactive, hcommitted, hcursors⟩ := h
  refine ⟨fun i hi => ?_, fun i hi => ?_, fun d hd => ?_, fun d hd => ?_, fun c hc hscope => ?_⟩
  · rw [hissues] at hi
    cases hi
  · rw [hissues] at hi
    cases hi
  · rw [hactive] at hd
    cases hd
  · rw [hcommitted] at hd
    cases hd
  · exact absurd hscope (hcursors c hc)

theorem Moves.dates (h : s.Moves s') (hs : s.Sound key) :
    ∀ i ∈ s'.issues, i.created ≤ i.updated ∧ i.updated ≤ s'.clock := by
  intro i hi
  rcases h.issues i hi with hold | ⟨hupdated, -, -, hcreated | ⟨old, hold, hcreated⟩⟩
  · exact ⟨(hs.dates i hold).1, (hs.dates i hold).2.trans h.clock⟩
  · exact ⟨hcreated.le.trans hupdated.ge, hupdated.le⟩
  · have hbefore := hs.dates old hold
    exact ⟨by have := h.clock; omega, hupdated.le⟩

theorem Moves.edits_le (h : s.Moves s') (hs : s.Sound key) :
    ∀ i ∈ s'.issues, i.edit ≤ s'.edits := by
  intro i hi
  rcases h.issues i hi with hold | ⟨-, hedit, -⟩
  · exact (hs.edits i hold).trans h.edits
  · exact hedit.le

theorem Sound.placed (hs : s.Sound key) {mode : ScanMode} {edited oldest newest : Option Issue}
    {d : Discovery} (hedited : s.EditedLast edited)
    (h : s.discover key mode edited oldest newest = .ok d) : s.Placed d := by
  obtain ⟨hprobe, hprobedAt, -, hbound, -⟩ := discover_eq h
  refine ⟨hprobe.le, hprobedAt.le, fun i hi _ => ?_, fun i hi hlater => ?_, fun m hm => ?_⟩
  · rw [hprobedAt]
    exact (hs.dates i hi).2
  · have hi := hs.edits i hi
    omega
  · unfold Discovery.resumeAt at hm
    rw [hbound, hprobedAt] at *
    cases edited with
    | none => cases hm
    | some n =>
        have hn := hs.dates n hedited.1
        cases hm
        exact minuteOf_mono (hn.1.trans hn.2)

theorem Sound.complete_cursors (hs : s.Sound key) {scan : SourceScan} {d : Discovery}
    {c : SourceCursor ℕ} (hc : c ∈ (s.complete key scan d).cursors) (hscope : c.scope = key.value)
    (hlive : c.Live) : ∃ e ∈ (s.complete key scan d).committed,
      e.resumeAt = some c.position.position := by
  unfold Project.complete
  rcases position_of_mem_commitProposals hc hscope with ⟨hold, hnone⟩ | ⟨hstored, hpos⟩
  · rw [if_neg (fun h => (any_tasks_iff d).1 h hnone)]
    exact hs.cursors c hold hscope hlive
  · rw [if_pos ((any_tasks_iff d).2 hstored)]
    exact ⟨d, rfl, hpos⟩

theorem complete_committed {scan : SourceScan} {d e : Discovery}
    (he : e ∈ (s.complete key scan d).committed) : e = d ∨ e ∈ s.committed := by
  unfold complete at he
  dsimp only at he
  split_ifs at he
  · exact Or.inl (Option.some.inj he).symm
  · exact Or.inr he

theorem Sound.step {a : ProjectAction} (hs : s.Sound key) (h : step key s a = some s') :
    s'.Sound key := by
  have hmoves := step_moves h
  have hold : ∀ d, s.Placed d → s'.Placed d := fun d hd => hd.moves hmoves
  -- What the clock, an edit and a launch do not write stands as it was.
  have hkeep (hactive : s'.active = s.active ∨ s'.active = none)
      (hcommitted : s'.committed = s.committed) (hcursors : ∀ c ∈ s'.cursors, c.Live →
        c ∈ s.cursors) : s'.Sound key := by
    refine ⟨hmoves.dates hs, hmoves.edits_le hs, fun d hd => ?_, fun d hd => ?_,
      fun c hc hscope hlive => ?_⟩
    · rcases hactive with heq | heq
      · exact hold d (hs.active d (heq ▸ hd))
      · rw [heq] at hd
        cases hd
    · exact hold d (hs.committed d (hcommitted ▸ hd))
    · rw [hcommitted]
      exact hs.cursors c (hcursors c hc hlive) hscope hlive
  cases a with
  | tick ms => cases h; exact hkeep (Or.inl rfl) rfl fun c hc _ => hc
  | create => cases h; exact hkeep (Or.inl rfl) rfl fun c hc _ => hc
  | edit k => cases h; exact hkeep (Or.inl rfl) rfl fun c hc _ => hc
  | discover mode edited oldest newest =>
      obtain ⟨hedited, d, hd, rfl⟩ := discover_cases h
      refine ⟨hs.dates, hs.edits, fun e he => ?_, fun e he => hold e (hs.committed e he),
        hs.cursors⟩
      exact Option.some.inj he ▸ hold d (hs.placed hedited hd)
  | complete scan =>
      obtain ⟨d, hd, rfl⟩ := complete_cases h
      refine ⟨hs.dates, hs.edits, fun e he => absurd he (Option.not_mem_none e), fun e he => ?_,
        fun c hc hscope hlive => hs.complete_cursors hc hscope hlive⟩
      rcases complete_committed he with rfl | he
      · exact hold _ (hs.active _ hd)
      · exact hold e (hs.committed e he)
  | abandon => cases h; exact hkeep (Or.inr rfl) rfl fun c hc _ => hc
  | retire reason =>
      cases h
      refine hkeep (Or.inl rfl) rfl fun c hc hlive => ?_
      obtain ⟨old, hmem, heq, -⟩ := mem_invalidate hc
      exact heq hlive ▸ hmem

abbrev Reached (key : ProjectKey) : Project → Prop :=
  Machine.Reachable (step key) (fun _ _ => True) (IsInitial key)

theorem Reached.sound (hs : Reached key s) : s.Sound key :=
  Machine.Reachable.invariant (fun _ h => sound_of_isInitial h)
    (fun _ _ _ h _ hstep => h.step hstep) hs

/-- A watermark in use is the one the last committed discovery left, and that one probed
no earlier than it. -/
theorem Sound.committed_of_since (hs : s.Sound key) {mode : ScanMode}
    {edited oldest newest : Option Issue} {d : Discovery} {since : ℕ}
    (h : s.discover key mode edited oldest newest = .ok d) (hsince : d.since = some since) :
    ∃ c, s.committed = some c ∧ c.resumeAt = some since ∧ s.Placed c ∧
      since ≤ minuteOf c.probedAt := by
  rw [(discover_eq h).2.2.1] at hsince
  obtain ⟨row, hrow, hscope, hlive, rfl⟩ := exists_cursor_of_watermarkOf hsince
  obtain ⟨c, hc, hresume⟩ := hs.cursors row hrow hscope hlive
  exact ⟨c, hc, hresume, hs.committed c hc, (hs.committed c hc).resumeAt _ hresume⟩

theorem mem_windows_of_since {key : ProjectKey} {since bound : ℕ} {oldest newest : Option Answer}
    {ws : List Window} {w : Window}
    (h : windows key (some since) (some bound) oldest newest = .ok ws) :
    w ∈ ws ↔
      since < bound ∧ w = { start := some since, stop := some bound, field := .updated } := by
  unfold windows at h
  dsimp only at h
  split_ifs at h with hle
  · cases h
    simp [not_lt.2 hle]
  · cases h
    simp [not_le.1 hle]

/-- What was edited after the probe of the scan that left the watermark lies in the window
exactly if that window reaches the minute of the last edit, which it does only where the
issue edited last was created in the minute of that edit. -/
theorem window_holds_edits_iff (hs : Reached key s) {mode : ScanMode}
    {edited oldest newest : Option Issue} {d : Discovery} {since : ℕ}
    (h : step key s (.discover mode edited oldest newest) = some s') (hd : s'.active = some d)
    (hsince : d.since = some since) :
    ∃ c, s.committed = some c ∧ c.resumeAt = some since ∧
      ((∀ x ∈ s.issues, c.probe < x.edit → ∃ bound, d.bound.map Prod.fst = some bound ∧
          { start := some since, stop := some bound, field := .updated } ∈ d.windows ∧
          since ≤ minuteOf x.updated ∧ minuteOf x.updated < bound) ↔
        (∀ x ∈ s.issues, x.edit ≤ c.probe) ∨
          ∃ n ∈ edited, minuteOf n.created = minuteOf n.updated) := by
  have hsound := Reached.sound hs
  obtain ⟨hedited, d', hdiscover, rfl⟩ := discover_cases h
  obtain rfl := Option.some.inj hd
  obtain ⟨c, hc, hresume, hplaced, hbefore⟩ := hsound.committed_of_since hdiscover hsince
  obtain ⟨-, -, -, hbound, hwindows⟩ := discover_eq hdiscover
  refine ⟨c, hc, hresume, ?_⟩
  rw [hsince, hbound] at hwindows
  rw [hbound]
  cases edited with
  | none =>
      -- No issue at all.
      have hnone : s.issues = [] := hedited
      simp [hnone]
  | some n =>
      obtain ⟨hn, hlast⟩ := hedited
      have hcreated := minuteOf_mono (hsound.dates n hn).1
      constructor
      · intro hall
        by_cases hnew : ∃ x ∈ s.issues, c.probe < x.edit
        · obtain ⟨x, hx, hafter⟩ := hnew
          refine Or.inr ⟨n, rfl, hcreated.antisymm ?_⟩
          by_cases hseen : n.edit ≤ c.probe
          · -- The issue edited last is older than the edit that was found.
            have hle : n.updated ≤ x.updated :=
              (hplaced.seen n hn hseen).trans (hplaced.later x hx hafter)
            obtain ⟨bound, hb, -, -, hlt⟩ := hall x hx hafter
            cases hb
            exact (minuteOf_mono hle).trans (Nat.le_of_lt_succ hlt)
          · obtain ⟨bound, hb, -, -, hlt⟩ := hall n hn (not_le.1 hseen)
            cases hb
            exact Nat.le_of_lt_succ hlt
        · push Not at hnew
          exact Or.inl hnew
      · rintro (hnone | ⟨_, hn', hminute⟩) x hx hafter
        · exact absurd hafter (not_lt.2 (hnone x hx))
        · obtain rfl := Option.some.inj hn'
          have hge : since ≤ minuteOf x.updated :=
            hbefore.trans (minuteOf_mono (hplaced.later x hx hafter))
          have hlt : minuteOf x.updated < minuteOf n.created + 1 := by
            have := hlast x hx
            omega
          exact ⟨_, rfl, (mem_windows_of_since hwindows).2 ⟨hge.trans_lt hlt, rfl⟩, hge, hlt⟩

def eng : ProjectKey := ⟨"ENG", by decide⟩

def scanRow : SourceScan := { id := 1, startedAt := 0 }

def firstIssue : Issue := { created := 0, updated := 0, edit := 1 }

def scannedOnce : List ProjectAction :=
  [.create, .discover .full (some firstIssue) (some firstIssue) (some firstIssue),
    .complete scanRow, .tick 1200000]

theorem isInitial_empty : IsInitial eng {} :=
  ⟨rfl, rfl, rfl, fun _ hc => absurd hc List.not_mem_nil⟩

theorem reached_of_run {as : List ProjectAction}
    (h : Machine.run (step eng) (fun _ _ => True) {} as = some s) : Reached eng s :=
  (Machine.Reachable.start isInitial_empty).run h

/-- The issue edited last was filed after the first scan, and is in the window. -/
theorem window_holds_a_new_issue : ∃ s : Project, ∃ d : Discovery, ∃ x ∈ s.issues,
    x.updated = 1200000 ∧
      d.windows = [{ start := some 0, stop := some 21, field := .updated }] ∧
        0 ≤ minuteOf x.updated ∧ minuteOf x.updated < 21 := by
  let fresh : Issue := { created := 1200000, updated := 1200000, edit := 2 }
  let look : ProjectAction := .discover .incremental (some fresh) (some firstIssue) (some fresh)
  have hrun : (Machine.run (step eng) (fun _ _ => True) {} (scannedOnce ++ [.create])).any fun s =>
      (step eng s look).any fun s' => fresh ∈ s.issues ∧ ∃ c ∈ s.committed, c.probe = 1 ∧
        ∃ d ∈ s'.active, d.since = some 0 ∧ d.bound.map Prod.fst = some 21 ∧
          d.windows = [{ start := some 0, stop := some 21, field := .updated }] := by
    decide +kernel
  obtain ⟨s, hs, hobs⟩ := (Option.any_eq_true _ _).1 hrun
  obtain ⟨s', hstep, hobs⟩ := (Option.any_eq_true _ _).1 hobs
  obtain ⟨hx, c, hc, hprobe, d, hd, hsince, hbound, hwindows⟩ := of_decide_eq_true hobs
  obtain ⟨c', hc', -, hiff⟩ := window_holds_edits_iff (reached_of_run hs) hstep hd hsince
  have hedit : c'.probe < fresh.edit := by
    rw [Option.some.inj (hc'.symm.trans hc), hprobe]
    decide
  obtain ⟨bound, hb, -, hge, hlt⟩ := hiff.2 (Or.inr ⟨fresh, rfl, rfl⟩) fresh hx hedit
  rw [hbound] at hb
  cases hb
  exact ⟨s, d, fresh, hx, rfl, hwindows, hge, hlt⟩

/-- An edit of an old issue: the probe answers with the date the issue was filed at, and
the window ends before the edit. -/
theorem window_misses_an_edit : ∃ s s' : Project, ∃ d c : Discovery, ∃ x, Reached eng s ∧
    step eng s (.discover .incremental (some x) (some x) (some x)) = some s' ∧
      s'.active = some d ∧ s.committed = some c ∧ d.since = c.resumeAt ∧ d.since = some 0 ∧
        x ∈ s.issues ∧ c.probe < x.edit ∧ ∀ w ∈ d.windows, ¬ w.Contains x := by
  let edited : Issue := { created := 0, updated := 1200000, edit := 2 }
  let look : ProjectAction := .discover .incremental (some edited) (some edited) (some edited)
  have hrun : (Machine.run (step eng) (fun _ _ => True) {} (scannedOnce ++ [.edit 0])).any fun s =>
      (step eng s look).any fun s' => edited ∈ s.issues ∧ ∃ c ∈ s.committed,
        c.probe < edited.edit ∧ ∃ d ∈ s'.active, d.since = c.resumeAt ∧ d.since = some 0 ∧
          ∀ w ∈ d.windows, ¬ w.Contains edited := by decide +kernel
  obtain ⟨s, hs, hobs⟩ := (Option.any_eq_true _ _).1 hrun
  obtain ⟨s', hstep, hobs⟩ := (Option.any_eq_true _ _).1 hobs
  obtain ⟨hx, c, hc, hafter, d, hd, hsince, hzero, hmissed⟩ := of_decide_eq_true hobs
  exact ⟨s, s', d, c, edited, reached_of_run hs, hstep, hd, hc, hsince, hzero, hx, hafter, hmissed⟩

end Project

end IcebergSST.Jira
