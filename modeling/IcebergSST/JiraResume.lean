import IcebergSST.JiraWindows
import IcebergSST.Library.Bookmark

/-!
# Resuming a window

Behind each issue that was read to its end, a fetch publishes the minute it has come to
and the ids it finished at that minute. The next attempt queries from that minute on and
passes over what the ids name. The server may put the issues of one minute in another
order each time.
-/

namespace IcebergSST.Jira

def checkpointVersion : String := "1"

def maxMinuteIds : ℕ := 2000

structure IssuePosition where
  version : String
  field : DateField
  minute : ℕ
  seen : List String
  deriving DecidableEq, Repr

/-- A point a previous attempt of this task reached. -/
structure Resume where
  minute : ℕ
  seen : List String
  deriving DecidableEq, Repr

/-- How the reading of an issue goes: through all its units, whatever dispositions they
get; not past its body, which is refused; or out of the fetch. -/
inductive Reading
  | units
  | refused
  | raised
  deriving DecidableEq, Repr

/-- An issue in the answer to a search. The answer may carry no id and no readable date. -/
structure Answered where
  issue : String
  hasId : Bool := true
  dated : Bool := true
  reading : Reading := .units
  deriving DecidableEq, Repr

inductive IssueEvent
  | failed (issue : String)
  | passedOver (issue : String)
  | enumerated (issue : String)
  | checkpoint (position : IssuePosition)
  deriving DecidableEq, Repr

/-- What `fetch` keeps of the minute it is at. -/
structure MinuteIds where
  minute : Option ℕ := none
  finished : List String := []
  deriving DecidableEq, Repr

def MinuteIds.finish (st : MinuteIds) (minute : ℕ) (id : String) : MinuteIds :=
  if st.minute = some minute then { st with finished := st.finished ++ [id] }
  else { minute := some minute, finished := [id] }

/-- The resume point on the lease. `usable` are the minutes whose literal has the shape the
connector takes back. -/
def resumePoint (usable : ℕ → Bool) (checkpoint : Option IssuePosition) (window : Window) :
    Option Resume :=
  match checkpoint with
  | none => none
  | some position =>
      if position.version ≠ checkpointVersion then none
      else if !usable position.minute || position.seen.isEmpty then none
      else if position.field ≠ window.field then none
      else some { minute := position.minute, seen := position.seen }

/-- The range of the query for one window. -/
def jql (window : Window) (resume : Option Resume) : Window :=
  { window with start := (resume.map Resume.minute).or window.start }

def Window.Holds (w : Window) (minute : ℕ) : Prop :=
  (∀ m ∈ w.start, m ≤ minute) ∧ ∀ m ∈ w.stop, minute < m

section Fetch

-- the minute of the window's date, as the server compares and renders it
variable (minute : String → ℕ) (window : Window) (resume : Option Resume)

def Answered.id (a : Answered) : String := if a.hasId then a.issue else ""

def Answered.fieldAt (a : Answered) : Option ℕ := if a.dated then some (minute a.issue) else none

def Resume.covers (r : Resume) (a : Answered) : Bool :=
  a.id ∈ r.seen && a.fieldAt minute = some r.minute

def publish (st : MinuteIds) (minute : ℕ) : List IssueEvent :=
  if st.finished.length ≤ maxMinuteIds then
    [.checkpoint
      { version := checkpointVersion, field := window.field, minute, seen := st.finished }]
  else []

/-- One issue; `none` if the fetch is left. -/
def readIssue (st : MinuteIds) (a : Answered) : List IssueEvent × Option MinuteIds :=
  if a.id = "" then ([.failed a.issue], some st)
  else if resume.any fun r => r.covers minute a then ([.passedOver a.issue], some st)
  else
    match a.reading with
    | .raised => ([], none)
    | .refused => ([.failed a.issue], some st)
    | .units =>
        match a.fieldAt minute with
        | none => ([.enumerated a.issue], some st)
        | some stamp =>
            (.enumerated a.issue :: publish window (st.finish stamp a.id) stamp,
              some (st.finish stamp a.id))

/-- The issues of a search, one after another; `false` if the fetch is left. -/
def fetch (st : MinuteIds) : List Answered → List IssueEvent × Bool
  | [] => ([], true)
  | a :: answers =>
      match readIssue minute window resume st a with
      | (events, none) => (events, false)
      | (events, some st') =>
          let rest := fetch st' answers
          (events ++ rest.1, rest.2)

end Fetch

/-- What a server may answer to a search among `issues`: what the range selects, in the
order of the minutes. -/
structure Answers (minute : String → ℕ) (issues : Finset String) (range : Window)
    (answers : List Answered) : Prop where
  nodup : (answers.map Answered.issue).Nodup
  mem_iff : ∀ i, i ∈ answers.map Answered.issue ↔ i ∈ issues ∧ range.Holds (minute i)
  ordered : answers.Pairwise fun a b => minute a.issue ≤ minute b.issue

/-- Attempts one after another, each from the position stored last. An attempt may end
after any of its events, and any position it published by then may be the one stored. -/
inductive Attempts (usable : ℕ → Bool) (minute : String → ℕ) (issues : Finset String)
    (window : Window) : List (List IssueEvent) → Option IssuePosition → Prop
  | start : Attempts usable minute issues window [] none
  | attempt {past : List (List IssueEvent)} {stored stored' : Option IssuePosition}
      {answers : List Answered} {events : List IssueEvent}
      (before : Attempts usable minute issues window past stored)
      (answered : Answers minute issues (jql window (resumePoint usable stored window)) answers)
      (cut : events <+: (fetch minute window (resumePoint usable stored window) {} answers).1)
      (delivered : stored' = stored ∨ ∃ p, stored' = some p ∧ .checkpoint p ∈ events) :
      Attempts usable minute issues window (past ++ [events]) stored'

section Fetch

variable {minute : String → ℕ} {window : Window} {resume : Option Resume} {st st' : MinuteIds}
  {a : Answered} {answers : List Answered} {events emitted : List IssueEvent}
  {p : IssuePosition} {i : String}

/-- An issue is done with in a log. -/
def Accounted (i : String) (events : List IssueEvent) : Prop :=
  .enumerated i ∈ events ∨ .failed i ∈ events

/-- The ids of a minute name issues that were read to the end at that minute. -/
def MinuteIds.Sound (minute : String → ℕ) (emitted : List IssueEvent) (st : MinuteIds) : Prop :=
  ∀ i ∈ st.finished, .enumerated i ∈ emitted ∧ st.minute = some (minute i)

theorem MinuteIds.Sound.mono (h : st.Sound minute emitted) (hsub : emitted ⊆ events) :
    st.Sound minute events :=
  fun i hi => ⟨hsub (h i hi).1, (h i hi).2⟩

theorem id_eq_issue (h : a.id ≠ "") : a.id = a.issue := by
  unfold Answered.id at h ⊢
  split_ifs at h ⊢ with hid
  · rfl
  · exact absurd rfl h

theorem readIssue_cases (h : readIssue minute window resume st a = (events, some st')) :
    (events = [.failed a.issue] ∧ st' = st) ∨
      (events = [.passedOver a.issue] ∧ st' = st ∧ a.id = a.issue ∧
        ∃ r ∈ resume, r.covers minute a) ∨
      (events = [.enumerated a.issue] ∧ st' = st) ∨
      (events = .enumerated a.issue :: publish window st' (minute a.issue) ∧
        st' = st.finish (minute a.issue) a.issue) := by
  unfold readIssue at h
  split_ifs at h with hid hcovers
  · obtain ⟨rfl, hst⟩ := Prod.mk.inj h
    exact Or.inl ⟨rfl, (Option.some.inj hst).symm⟩
  · obtain ⟨rfl, hst⟩ := Prod.mk.inj h
    obtain ⟨r, hr, hcovered⟩ := (Option.any_eq_true _ _).1 hcovers
    exact Or.inr (Or.inl ⟨rfl, (Option.some.inj hst).symm, id_eq_issue hid, r, hr, hcovered⟩)
  · cases hreading : a.reading with
    | raised => simp [hreading] at h
    | refused =>
        simp only [hreading, Prod.mk.injEq, Option.some.injEq] at h
        exact Or.inl ⟨h.1.symm, h.2.symm⟩
    | units =>
        simp only [hreading, Answered.fieldAt] at h
        cases hdated : a.dated with
        | true =>
            simp only [hdated, if_true, Prod.mk.injEq, Option.some.injEq, id_eq_issue hid] at h
            obtain ⟨rfl, rfl⟩ := h
            exact Or.inr (Or.inr (Or.inr ⟨rfl, rfl⟩))
        | false =>
            simp only [hdated, Bool.false_eq_true, if_false, Prod.mk.injEq, Option.some.injEq] at h
            exact Or.inr (Or.inr (Or.inl ⟨h.1.symm, h.2.symm⟩))

theorem minute_finish (st : MinuteIds) (m : ℕ) (id : String) :
    (st.finish m id).minute = some m := by
  unfold MinuteIds.finish
  split_ifs with h
  · exact h
  · rfl

theorem MinuteIds.Sound.finish (h : st.Sound minute emitted) (hi : .enumerated i ∈ emitted) :
    (st.finish (minute i) i).Sound minute emitted := by
  unfold MinuteIds.finish
  split_ifs with hsame
  · intro j hj
    rcases List.mem_append.1 hj with hj | hj
    · exact h j hj
    · rw [List.mem_singleton.1 hj]
      exact ⟨hi, hsame⟩
  · intro j hj
    rw [List.mem_singleton.1 hj]
    exact ⟨hi, rfl⟩

theorem readIssue_none (h : readIssue minute window resume st a = (events, none)) :
    events = [] := by
  unfold readIssue at h
  split_ifs at h
  · simp at h
  · simp at h
  · cases hreading : a.reading with
    | raised => simpa [hreading, eq_comm] using h
    | refused => simp [hreading] at h
    | units => cases hat : a.fieldAt minute <;> simp [hreading, hat] at h

/-- An issue was done with, or passed over. -/
def Met (i : String) (events : List IssueEvent) : Prop :=
  Accounted i events ∨ .passedOver i ∈ events

theorem Met.mono (h : Met i emitted) (hsub : emitted ⊆ events) : Met i events :=
  h.imp (Or.imp (@hsub _) (@hsub _)) (@hsub _)

theorem met_of_readIssue (h : readIssue minute window resume st a = (events, some st')) :
    Met a.issue events := by
  rcases readIssue_cases h with ⟨rfl, -⟩ | ⟨rfl, -, -⟩ | ⟨rfl, -⟩ | ⟨rfl, -⟩
  · exact Or.inl (Or.inr List.mem_cons_self)
  · exact Or.inr List.mem_cons_self
  · exact Or.inl (Or.inl List.mem_cons_self)
  · exact Or.inl (Or.inl List.mem_cons_self)

theorem sound_of_readIssue (hst : st.Sound minute emitted)
    (h : readIssue minute window resume st a = (events, some st')) :
    st'.Sound minute (emitted ++ events) := by
  have hkept := hst.mono (List.subset_append_left emitted events)
  rcases readIssue_cases h with ⟨-, rfl⟩ | ⟨-, rfl, -⟩ | ⟨-, rfl⟩ | ⟨hevents, rfl⟩
  · exact hkept
  · exact hkept
  · exact hkept
  · exact hkept.finish (List.mem_append_right _ (hevents ▸ List.mem_cons_self))

theorem checkpoint_of_readIssue {before after : List IssueEvent}
    (h : readIssue minute window resume st a = (before ++ .checkpoint p :: after, some st')) :
    before = [.enumerated a.issue] ∧ p.field = window.field ∧ p.minute = minute a.issue ∧
      p.seen = st'.finished ∧ st' = st.finish (minute a.issue) a.issue := by
  rcases readIssue_cases h with ⟨hevents, -⟩ | ⟨hevents, -, -⟩ | ⟨hevents, -⟩ | ⟨hevents, hst⟩
  · cases before <;> simp at hevents
  · cases before <;> simp at hevents
  · cases before <;> simp at hevents
  · unfold publish at hevents
    cases before with
    | nil => simp at hevents
    | cons e before =>
        split_ifs at hevents
        · cases before with
          | nil =>
              simp only [List.cons_append, List.nil_append, List.cons.injEq,
                IssueEvent.checkpoint.injEq] at hevents
              obtain ⟨rfl, rfl, -⟩ := hevents
              exact ⟨rfl, rfl, rfl, rfl, hst⟩
          | cons e' before => simp at hevents
        · simp at hevents

theorem met_of_fetch (h : (fetch minute window resume st answers).2 = true) :
    ∀ a ∈ answers, Met a.issue (fetch minute window resume st answers).1 := by
  induction answers generalizing st with
  | nil => simp
  | cons a answers ih =>
      simp only [fetch] at h ⊢
      rcases hread : readIssue minute window resume st a with ⟨events, _ | st'⟩
      · simp [hread] at h
      · simp only [hread] at h ⊢
        intro b hb
        rcases List.mem_cons.1 hb with rfl | hb
        · exact (met_of_readIssue hread).mono (List.subset_append_left _ _)
        · exact (ih h b hb).mono (List.subset_append_right _ _)

/-- What is passed over is named by the resume point, at its minute. -/
theorem covers_of_passedOver (h : .passedOver i ∈ (fetch minute window resume st answers).1) :
    ∃ r ∈ resume, i ∈ r.seen ∧ minute i = r.minute := by
  induction answers generalizing st with
  | nil => cases h
  | cons a answers ih =>
      simp only [fetch] at h
      rcases hread : readIssue minute window resume st a with ⟨events, _ | st'⟩
      · rw [hread] at h
        rw [readIssue_none hread] at h
        cases h
      · simp only [hread] at h
        rcases List.mem_append.1 h with hi | hi
        · rcases readIssue_cases hread with ⟨rfl, -⟩ | ⟨rfl, -, hid, r, hr, hcovers⟩ | ⟨rfl, -⟩ |
            ⟨rfl, -⟩
          · simp at hi
          · obtain rfl : i = a.issue := by simpa using hi
            simp only [Resume.covers, Bool.and_eq_true, decide_eq_true_eq, hid] at hcovers
            refine ⟨r, hr, hcovers.1, ?_⟩
            have hat := hcovers.2
            unfold Answered.fieldAt at hat
            split_ifs at hat
            exact Option.some.inj hat
          · simp at hi
          · simp only [List.mem_cons, reduceCtorEq, false_or] at hi
            unfold publish at hi
            split_ifs at hi <;> simp at hi
        · exact ih hi

/-- Ahead of a position, all the issues up to one of its minute were met, and those it
names were read to the end. -/
theorem fetch_checkpoint {before after : List IssueEvent} (hst : st.Sound minute emitted)
    (h : (fetch minute window resume st answers).1 = before ++ .checkpoint p :: after) :
    ∃ done a rest, answers = done ++ a :: rest ∧ p.field = window.field ∧
      p.minute = minute a.issue ∧ (∀ b ∈ done ++ [a], Met b.issue before) ∧
      ∀ i ∈ p.seen, .enumerated i ∈ emitted ++ before ∧ minute i = p.minute := by
  induction answers generalizing st before emitted with
  | nil => simp [fetch] at h
  | cons a answers ih =>
      simp only [fetch] at h
      rcases hread : readIssue minute window resume st a with ⟨events, _ | st'⟩
      · simp [hread, readIssue_none hread] at h
      · simp only [hread] at h
        have hmet := met_of_readIssue hread
        have hsound := sound_of_readIssue hst hread
        rcases Bookmark.append_split h with ⟨tail, rfl, hrest⟩ | ⟨tail, rfl⟩
        · obtain ⟨done, b, rest, rfl, hfield, hminute, hall, hseen⟩ := ih hsound hrest
          refine ⟨a :: done, b, rest, rfl, hfield, hminute, ?_, ?_⟩
          · intro c hc
            rcases List.mem_cons.1 hc with rfl | hc
            · exact hmet.mono (List.subset_append_left _ _)
            · exact (hall c hc).mono (List.subset_append_right _ _)
          · simpa only [List.append_assoc] using hseen
        · obtain ⟨rfl, hfield, hminute, hseen, hst'⟩ := checkpoint_of_readIssue hread
          have hfinished : (st.finish (minute a.issue) a.issue).Sound minute
              (emitted ++ [.enumerated a.issue]) :=
            (hst.mono (List.subset_append_left _ _)).finish
              (List.mem_append_right _ (List.mem_singleton_self _))
          refine ⟨[], a, answers, rfl, hfield, hminute, ?_, ?_⟩
          · intro b hb
            rw [List.nil_append, List.mem_singleton] at hb
            exact hb ▸ Or.inl (Or.inl (List.mem_singleton_self _))
          · intro i hi
            rw [hseen, hst'] at hi
            obtain ⟨hread', hat⟩ := hfinished i hi
            refine ⟨hread', ?_⟩
            rw [minute_finish] at hat
            rw [hminute]
            exact (Option.some.inj hat).symm

end Fetch

section Attempts

variable {usable : ℕ → Bool} {minute : String → ℕ} {issues : Finset String} {window : Window}
  {past : List (List IssueEvent)} {stored : Option IssuePosition} {answers : List Answered}
  {i : String}

/-- A position that is stored has all of the window behind it accounted for, and names
only what was read to the end at its minute. -/
structure Vouched (minute : String → ℕ) (issues : Finset String) (window : Window)
    (past : List (List IssueEvent)) (p : IssuePosition) : Prop where
  behind : ∀ i ∈ issues, window.Holds (minute i) → minute i < p.minute →
    ∃ events ∈ past, Accounted i events
  named : ∀ i ∈ p.seen, minute i = p.minute ∧ ∃ events ∈ past, .enumerated i ∈ events

theorem Vouched.mono {past' : List (List IssueEvent)} {p : IssuePosition}
    (h : Vouched minute issues window past p) (hsub : past ⊆ past') :
    Vouched minute issues window past' p where
  behind := by
    intro i hi hin hlt
    obtain ⟨events, he, hdone⟩ := h.behind i hi hin hlt
    exact ⟨events, hsub he, hdone⟩
  named := by
    intro i hi
    obtain ⟨hat, events, he, hread⟩ := h.named i hi
    exact ⟨hat, events, hsub he, hread⟩

theorem resumePoint_cases (usable : ℕ → Bool) (stored : Option IssuePosition) (window : Window) :
    resumePoint usable stored window = none ∨
      ∃ p, stored = some p ∧
        resumePoint usable stored window = some { minute := p.minute, seen := p.seen } := by
  unfold resumePoint
  cases stored with
  | none => exact Or.inl rfl
  | some p =>
      dsimp only
      split_ifs
      · exact Or.inl rfl
      · exact Or.inl rfl
      · exact Or.inl rfl
      · exact Or.inr ⟨p, rfl, rfl⟩

/-- Of the issues of the window, those that a resumed query leaves out are accounted for. -/
theorem accounted_of_not_selected (hstored : ∀ p ∈ stored, Vouched minute issues window past p)
    (hi : i ∈ issues) (hin : window.Holds (minute i))
    (hout : ¬ (jql window (resumePoint usable stored window)).Holds (minute i)) :
    ∃ events ∈ past, Accounted i events := by
  rcases resumePoint_cases usable stored window with hnone | ⟨p, rfl, hresume⟩
  · rw [hnone] at hout
    exact absurd hin hout
  · rw [hresume] at hout
    refine (hstored p rfl).behind i hi hin ?_
    by_contra hge
    refine hout ⟨?_, hin.2⟩
    intro m hm
    obtain rfl : p.minute = m := by simpa [jql] using hm
    exact not_lt.1 hge

/-- What an attempt passes over, an earlier one read to the end at that minute. -/
theorem enumerated_of_passedOver (hstored : ∀ p ∈ stored, Vouched minute issues window past p)
    (h : .passedOver i ∈
      (fetch minute window (resumePoint usable stored window) {} answers).1) :
    ∃ p ∈ stored, i ∈ p.seen ∧ minute i = p.minute ∧ ∃ events ∈ past, .enumerated i ∈ events := by
  obtain ⟨r, hr, hseen, hat⟩ := covers_of_passedOver h
  rcases resumePoint_cases usable stored window with hnone | ⟨p, rfl, hresume⟩
  · rw [hnone] at hr
    cases hr
  · rw [hresume] at hr
    obtain rfl := Option.some.inj hr
    exact ⟨p, rfl, hseen, hat, ((hstored p rfl).named i hseen).2⟩

theorem accounted_of_met (hstored : ∀ p ∈ stored, Vouched minute issues window past p)
    {events : List IssueEvent} (hevents : events ⊆
      (fetch minute window (resumePoint usable stored window) {} answers).1)
    (h : Met i events) : ∃ events' ∈ past ++ [events], Accounted i events' := by
  rcases h with h | h
  · exact ⟨events, by simp, h⟩
  · obtain ⟨-, -, -, -, events', he, hread⟩ := enumerated_of_passedOver hstored (hevents h)
    exact ⟨events', List.mem_append_left _ he, Or.inl hread⟩

theorem vouched_of_published (hstored : ∀ p ∈ stored, Vouched minute issues window past p)
    (hanswers : Answers minute issues (jql window (resumePoint usable stored window)) answers)
    {events : List IssueEvent} (hcut : events <+:
      (fetch minute window (resumePoint usable stored window) {} answers).1)
    {p : IssuePosition} (hp : .checkpoint p ∈ events) :
    Vouched minute issues window (past ++ [events]) p := by
  obtain ⟨before, after, rfl⟩ := List.append_of_mem hp
  obtain ⟨tail, htail⟩ := hcut
  rw [List.append_assoc, List.cons_append] at htail
  have hsound : ({} : MinuteIds).Sound minute [] := fun i hi => by cases hi
  obtain ⟨done, a, rest, rfl, -, hminute, hmet, hseen⟩ := fetch_checkpoint hsound htail.symm
  have hbefore : before ⊆ before ++ .checkpoint p :: after := List.subset_append_left _ _
  constructor
  · intro i hi hin hlt
    by_cases hselected : (jql window (resumePoint usable stored window)).Holds (minute i)
    · obtain ⟨b, hb, rfl⟩ := List.mem_map.1 ((hanswers.mem_iff i).2 ⟨hi, hselected⟩)
      have hdone : b ∈ done ++ [a] := by
        -- an answer behind that of the position has no smaller minute
        by_contra hnot
        have hrest : b ∈ rest := by simpa [not_or.1 (by simpa using hnot)] using hb
        have hordered := (List.pairwise_append.1 hanswers.ordered).2.1
        have hle := (List.pairwise_cons.1 hordered).1 b hrest
        omega
      have hsub : before ++ .checkpoint p :: after ⊆
          (fetch minute window (resumePoint usable stored window) {} (done ++ a :: rest)).1 := by
        rw [← htail, ← List.cons_append, ← List.append_assoc]
        exact List.subset_append_left _ _
      exact accounted_of_met hstored hsub ((hmet b hdone).mono hbefore)
    · obtain ⟨events, he, hdone⟩ := accounted_of_not_selected hstored hi hin hselected
      exact ⟨events, List.mem_append_left _ he, hdone⟩
  · intro i hi
    obtain ⟨hread, hat⟩ := hseen i hi
    exact ⟨hat, _, List.mem_append_right _ (List.mem_singleton_self _), hbefore hread⟩

theorem Attempts.vouched (h : Attempts usable minute issues window past stored) :
    ∀ p ∈ stored, Vouched minute issues window past p := by
  induction h with
  | start => intro p hp; cases hp
  | attempt before answered cut delivered ih =>
      rcases delivered with rfl | ⟨p, rfl, hp⟩
      · exact fun p hp => (ih p hp).mono (List.subset_append_left _ _)
      · intro q hq
        obtain rfl := Option.some.inj hq
        exact vouched_of_published ih answered cut hp

/-- What an attempt does at any point of a chain passes over no issue that was not read to
its end at the same minute, and once the attempt ends, every issue of the window was
accounted for. -/
theorem resume_never_skips (h : Attempts usable minute issues window past stored)
    (hanswers : Answers minute issues (jql window (resumePoint usable stored window)) answers) :
    (∀ i, .passedOver i ∈ (fetch minute window (resumePoint usable stored window) {} answers).1 →
      ∃ p ∈ stored, minute i = p.minute ∧ i ∈ p.seen ∧
        ∃ events ∈ past, .enumerated i ∈ events) ∧
    ((fetch minute window (resumePoint usable stored window) {} answers).2 = true →
      ∀ i ∈ issues, window.Holds (minute i) →
        ∃ events ∈
          past ++ [(fetch minute window (resumePoint usable stored window) {} answers).1],
          Accounted i events) := by
  constructor
  · intro i hi
    obtain ⟨p, hp, hseen, hat, hread⟩ := enumerated_of_passedOver h.vouched hi
    exact ⟨p, hp, hat, hseen, hread⟩
  · intro hend i hi hin
    by_cases hselected : (jql window (resumePoint usable stored window)).Holds (minute i)
    · obtain ⟨a, ha, rfl⟩ := List.mem_map.1 ((hanswers.mem_iff i).2 ⟨hi, hselected⟩)
      exact accounted_of_met h.vouched (List.Subset.refl _) (met_of_fetch hend a ha)
    · obtain ⟨events, he, hdone⟩ := accounted_of_not_selected h.vouched hi hin hselected
      exact ⟨events, List.mem_append_left _ he, hdone⟩

end Attempts

/-! Two issues of one minute and one of the next: the first attempt is left at the second
issue, and the second attempt is answered in another order. -/

def sharedMinute (i : String) : ℕ := if i = "3" then 6 else 5

def threeIssues : Finset String := {"1", "2", "3"}

def wholeProject : Window := { start := none, stop := none }

def leftAtTheSecond : List Answered :=
  [{ issue := "1" }, { issue := "2", reading := .raised }, { issue := "3" }]

def otherOrder : List Answered := [{ issue := "2" }, { issue := "1" }, { issue := "3" }]

def afterTheFirst : IssuePosition :=
  { version := checkpointVersion, field := .created, minute := 5, seen := ["1"] }

theorem sharedMinute_ge (i : String) : 5 ≤ sharedMinute i := by
  unfold sharedMinute
  split_ifs <;> omega

theorem resume_in_another_order :
    .passedOver "1" ∈ (fetch sharedMinute wholeProject
      (resumePoint (fun _ => true) (some afterTheFirst) wholeProject) {} otherOrder).1 ∧
    ∀ i ∈ threeIssues, ∃ events ∈ [[.enumerated "1", .checkpoint afterTheFirst]] ++
      [(fetch sharedMinute wholeProject
        (resumePoint (fun _ => true) (some afterTheFirst) wholeProject) {} otherOrder).1],
      Accounted i events := by
  have hfirst : Answers sharedMinute threeIssues (jql wholeProject none) leftAtTheSecond :=
    { nodup := by decide
      mem_iff := fun i => by simp [leftAtTheSecond, threeIssues, jql, wholeProject, Window.Holds]
      ordered := by decide }
  have hsecond : Answers sharedMinute threeIssues
      (jql wholeProject (resumePoint (fun _ => true) (some afterTheFirst) wholeProject))
      otherOrder :=
    { nodup := by decide
      mem_iff := fun i => by
        have hrange : (jql wholeProject
            (resumePoint (fun _ => true) (some afterTheFirst) wholeProject)).Holds
              (sharedMinute i) :=
          ⟨fun m hm => Option.some.inj hm ▸ sharedMinute_ge i, fun m hm => by cases hm⟩
        simp only [hrange, and_true]
        simp only [otherOrder, threeIssues, List.map_cons, List.map_nil, List.mem_cons,
          List.not_mem_nil, or_false, Finset.mem_insert, Finset.mem_singleton]
        tauto
      ordered := by decide }
  have hchain : Attempts (fun _ => true) sharedMinute threeIssues wholeProject
      ([] ++ [[.enumerated "1", .checkpoint afterTheFirst]]) (some afterTheFirst) :=
    .attempt .start hfirst (by decide) (Or.inr ⟨_, rfl, by decide⟩)
  refine ⟨by decide, fun i hi => ?_⟩
  have hholds : wholeProject.Holds (sharedMinute i) := by simp [wholeProject, Window.Holds]
  exact (resume_never_skips hchain hsecond).2 (by decide) i hi hholds

end IcebergSST.Jira
