import IcebergSST.Library.Bookmark
import IcebergSST.Library.Machine
import IcebergSST.Cursors

/-!
# The watermark of a Confluence space

A fetch task pages through the listing of its space. It skips a page whose revision is
not after the watermark, and after a crash every page up to the one it had finished; at
the end it proposes the newest revision it was shown as the next watermark. Between any
two requests pages are created and edited.

`version` numbers the revision of a page among all revisions of the space, and no code
reads it. A page counts as read when its body was, at the listed revision or, where a
deployment lists no bodies, at the one it has when it is requested.
-/

namespace IcebergSST.Confluence

/-- A page as it is listed. `createdAt` is the date of its revision, if the site says. -/
structure Page where
  id : String
  version : ℕ
  createdAt : Option ℕ
  deriving DecidableEq, Repr

/-- How a scope is named, which is never by an empty string. -/
structure SpaceSpec where
  spaceKey : String
  spaceId : String
  spaceId_ne : spaceId ≠ ""

def SpaceSpec.scope (spec : SpaceSpec) : String :=
  if spec.spaceKey = "" then spec.spaceId else spec.spaceKey

def watermark (positions : List (SourceCursor ℕ)) (spec : SpaceSpec) : Option ℕ :=
  watermarkOf positions spec.scope

/-- Unchanged since the watermark: both are known, and the revision is not after it. -/
def unchanged (since : Option ℕ) (page : Page) : Bool :=
  match since, page.createdAt with
  | some since, some revision => revision ≤ since
  | _, _ => false

def newer : Option ℕ → Option ℕ → Option ℕ
  | newest, none => newest
  | none, some revision => some revision
  | some newest, some revision => some (max newest revision)

/-- What comes of reading a page: all of it, all but some comments or attachments, or not
even its body. -/
inductive PageOutcome
  | read
  | partly
  | failed
  deriving DecidableEq, Repr

/-- One attempt of the fetch task. `queue` is what the last answer listed and was not
visited yet, `listed` what was visited, `before` what earlier attempts had stored. -/
structure Attempt where
  resume : Option String
  skipping : Bool
  before : List Page
  newest : Option ℕ := none
  queue : List Page := []
  listed : List Page := []
  /-- Read, and not reported yet. -/
  pending : List Page := []
  /-- The page of the last checkpoint. -/
  after : Option String := none
  gap : Bool := false

def Attempt.start (resume : Option String) (stored : List Page) : Attempt where
  resume
  skipping := resume.isSome
  before := stored

def Attempt.shown (a : Attempt) (page : Page) : Attempt :=
  { a with listed := a.listed ++ [page], newest := newer a.newest page.createdAt }

def Attempt.reading (a : Attempt) (page : Page) : PageOutcome → Attempt
  | .read => { a with pending := a.pending ++ [page], after := some page.id }
  | .partly => { a with pending := a.pending ++ [page], after := some page.id, gap := true }
  | .failed => { a with gap := true }

def Attempt.visit (since : Option ℕ) (a : Attempt) (page : Page) (outcome : PageOutcome) :
    Attempt :=
  if page.id = "" then { a with listed := a.listed ++ [page], gap := true }
  else if unchanged since page then a.shown page
  else if a.skipping then { a.shown page with skipping := some page.id ≠ a.resume }
  else (a.shown page).reading page outcome

/-- The page to resume after is gone, or something was not read. -/
def Attempt.incomplete (a : Attempt) : Bool := a.gap || a.skipping

structure SpaceScan where
  since : Option ℕ
  stored : List Page := []
  checkpoint : Option String := none
  gap : Bool := false
  attempt : Option Attempt := none

/-- A complete scan: what its last attempt was shown, and what the scan read. -/
structure CompleteScan where
  listed : List Page
  newest : Option ℕ
  read : List Page
  deriving DecidableEq, Repr

/-- `completed` has the last scan first; `committed` is the last one that left a
watermark. -/
structure Space where
  clock : ℕ := 0
  versions : ℕ := 0
  pages : List Page := []
  cursors : List (SourceCursor ℕ) := []
  active : Option SpaceScan := none
  completed : List CompleteScan := []
  committed : Option CompleteScan := none

inductive SpaceAction
  | tick (ms : ℕ)
  /-- A page is created or edited; the site may not date it. -/
  | publish (id : String) (dated : Bool)
  | launch (mode : ScanMode)
  /-- The task is leased, with its checkpoint or, where that cannot be used, without. -/
  | lease (usable : Bool)
  /-- The next answer of the listing shows these pages as they are. -/
  | list (ids : List String)
  | visit (outcome : PageOutcome)
  | report
  | crash
  | finish (scan : SourceScan)
  | abandon
  | retire (reason : CursorInvalidationReason)

namespace Space

def publish (s : Space) (id : String) (dated : Bool) : Space :=
  { s with
    versions := s.versions + 1
    pages := (s.pages.filter fun page => page.id ≠ id) ++
      [{ id, version := s.versions + 1, createdAt := if dated then some s.clock else none }] }

def launch (spec : SpaceSpec) (s : Space) (mode : ScanMode) : Space :=
  { s with active := some { since := watermark (positionsForScan s.cursors mode) spec } }

def shows (s : Space) (ids : List String) : List Page :=
  ids.filterMap fun id => s.pages.find? fun page => page.id = id

def withAttempt (s : Space) (scan : SpaceScan) (a : Attempt) : Space :=
  { s with active := some { scan with attempt := some a } }

/-- The checkpoint and what it covers are stored together. -/
def report (s : Space) (scan : SpaceScan) (a : Attempt) : Space :=
  { s with
    active := some
      { scan with
        stored := scan.stored ++ a.pending
        checkpoint := a.after
        gap := scan.gap || a.gap
        attempt := some { a with pending := [] } } }

def completion (scan : SpaceScan) (a : Attempt) : CompleteScan where
  listed := a.listed
  newest := a.newest
  read := scan.stored ++ a.pending

/-- The end of the listing. A scan with a gap stores no watermark. -/
def finish (spec : SpaceSpec) (s : Space) (row : SourceScan) (scan : SpaceScan) (a : Attempt) :
    Space :=
  if scan.gap || a.incomplete then { s with active := none }
  else
    { s with
      active := none
      cursors := commitProposals s.cursors row
        [(completedFetch spec.scope "1" a.newest : ScanTask Unit _)] s.clock
      completed := completion scan a :: s.completed
      committed := if a.newest.isSome then some (completion scan a) else s.committed }

def step (spec : SpaceSpec) (s : Space) : SpaceAction → Option Space
  | .tick ms => some { s with clock := s.clock + ms }
  | .publish id dated => some (s.publish id dated)
  | .launch mode => if s.active.isNone then some (s.launch spec mode) else none
  | .lease usable => s.active.bind fun scan =>
      if scan.attempt.isNone then
        some (s.withAttempt scan
          (.start (if usable then scan.checkpoint else none) scan.stored))
      else none
  | .list ids => s.active.bind fun scan => scan.attempt.bind fun a =>
      if a.queue = [] then some (s.withAttempt scan { a with queue := s.shows ids }) else none
  | .visit outcome => s.active.bind fun scan => scan.attempt.bind fun a =>
      match a.queue with
      | [] => none
      | page :: queue =>
          some (s.withAttempt scan ({ a with queue }.visit scan.since page outcome))
  | .report => s.active.bind fun scan => scan.attempt.bind fun a =>
      if a.after.isSome then some (s.report scan a) else none
  | .crash => s.active.map fun scan => { s with active := some { scan with attempt := none } }
  | .finish row => s.active.bind fun scan => scan.attempt.bind fun a =>
      if a.queue = [] then some (s.finish spec row scan a) else none
  | .abandon => some { s with active := none }
  | .retire reason => some { s with cursors := invalidate s.cursors reason s.clock }

/-- A space no scan has read. Other scopes of the source may have cursors. -/
def IsInitial (spec : SpaceSpec) (s : Space) : Prop :=
  s.active = none ∧ s.completed = [] ∧ s.committed = none ∧
    ∀ c ∈ s.cursors, c.scope ≠ spec.scope

end Space

theorem SpaceSpec.scope_ne_empty (spec : SpaceSpec) : spec.scope ≠ "" := by
  unfold scope
  by_cases hkey : spec.spaceKey = ""
  · rw [if_pos hkey]
    exact spec.spaceId_ne
  · rw [if_neg hkey]
    exact hkey

/-- The page an attempt can find its resume point at. -/
def mark (since : Option ℕ) (page : Page) : Option String :=
  if unchanged since page then none else some page.id

/-- What an attempt that resumes after a page does not pass over. -/
def afterResume (since : Option ℕ) (resume : Option String) (listed : List Page) : List Page :=
  Bookmark.rest (mark since) resume listed

def Latest (newest : Option ℕ) (pages : List Page) : Prop :=
  (∀ page ∈ pages, ∀ d ∈ page.createdAt, ∃ n ∈ newest, d ≤ n) ∧
    ∀ n ∈ newest, ∃ page ∈ pages, n ∈ page.createdAt

theorem Latest.nil : Latest none [] :=
  ⟨fun _ h => absurd h List.not_mem_nil, fun n h => absurd h (Option.not_mem_none n)⟩

theorem Latest.snoc {newest : Option ℕ} {pages : List Page} (h : Latest newest pages)
    (page : Page) : Latest (newer newest page.createdAt) (pages ++ [page]) := by
  obtain ⟨hbound, hattained⟩ := h
  have hold (n : ℕ) (hn : n ∈ newest) : ∃ x ∈ pages ++ [page], n ∈ x.createdAt := by
    obtain ⟨x, hx, hdate⟩ := hattained n hn
    exact ⟨x, List.mem_append_left _ hx, hdate⟩
  have hlast : page ∈ pages ++ [page] := List.mem_append_right _ (List.mem_singleton_self _)
  constructor
  · intro x hx d hd
    rcases List.mem_append.1 hx with hx | hx
    · obtain ⟨n, hn, hle⟩ := hbound x hx d hd
      cases hn
      cases page.createdAt with
      | none => exact ⟨n, rfl, hle⟩
      | some r => exact ⟨max n r, rfl, hle.trans (le_max_left _ _)⟩
    · obtain rfl := List.mem_singleton.1 hx
      rw [Option.mem_def.1 hd]
      cases newest with
      | none => exact ⟨d, rfl, le_rfl⟩
      | some n => exact ⟨max n d, rfl, le_max_right _ _⟩
  · intro n hn
    cases hdate : page.createdAt with
    | none =>
        rw [hdate] at hn
        cases newest <;> exact hold n hn
    | some r =>
        rw [hdate] at hn
        cases newest with
        | none => exact ⟨page, hlast, hdate.trans hn⟩
        | some m =>
            obtain rfl := Option.some.inj hn
            rcases max_cases m r with ⟨hmax, -⟩ | ⟨hmax, -⟩
            · rw [hmax]
              exact hold m rfl
            · rw [hmax]
              exact ⟨page, hlast, hdate⟩

/-- A revision dated no later than one the scan was shown. -/
def CompleteScan.Outdates (c : CompleteScan) (page : Page) : Prop :=
  ∃ d ∈ page.createdAt, ∃ other ∈ c.listed, ∃ d' ∈ other.createdAt, d ≤ d'

instance (c : CompleteScan) (page : Page) : Decidable (c.Outdates page) :=
  inferInstanceAs (Decidable (∃ d ∈ page.createdAt, ∃ other ∈ c.listed, ∃ d' ∈ other.createdAt, _))

theorem CompleteScan.unchanged_iff {c : CompleteScan} {since : ℕ} (h : Latest c.newest c.listed)
    (hsince : c.newest = some since) (page : Page) :
    unchanged (some since) page ↔ c.Outdates page := by
  obtain ⟨hbound, hattained⟩ := h
  unfold unchanged Outdates
  cases page.createdAt with
  | none => simp
  | some d =>
      simp only [decide_eq_true_eq]
      constructor
      · intro hle
        obtain ⟨other, hother, hdate⟩ := hattained since hsince
        exact ⟨d, rfl, other, hother, since, hdate, hle⟩
      · rintro ⟨_, hd, other, hother, d', hd', hle⟩
        cases hd
        obtain ⟨n, hn, hle'⟩ := hbound other hother d' hd'
        cases hsince.symm.trans hn
        exact hle.trans hle'

/-- What holds of an attempt that has met no gap. -/
structure Attempt.Follows (since : Option ℕ) (stored : List Page) (a : Attempt) : Prop where
  newest : Latest a.newest a.listed
  skipping : a.skipping ↔ ∃ r ∈ a.resume, ¬ Bookmark.Occurs (mark since) r a.listed
  reads : ∀ page, page ∈ stored ∨ page ∈ a.pending ↔ page ∈ a.before ∨
    page ∈ afterResume since a.resume a.listed ∧ unchanged since page = false

theorem Attempt.follows_start (since : Option ℕ) (resume : Option String) (stored : List Page) :
    (Attempt.start resume stored).Follows since stored := by
  refine ⟨.nil, ?_, fun page => ?_⟩
  · cases resume with
    | none => simp [start]
    | some r => simp [start, Bookmark.Occurs]
  · cases resume with
    | none => simp [start, afterResume, Bookmark.rest]
    | some r => simp [start, afterResume, Bookmark.rest]

theorem mem_afterResume_snoc {since : Option ℕ} {resume : Option String} {listed : List Page}
    {page p : Page} : p ∈ afterResume since resume (listed ++ [page]) ↔
      p ∈ afterResume since resume listed ∨
        p = page ∧ ∀ r ∈ resume, Bookmark.Occurs (mark since) r listed := by
  unfold afterResume
  cases resume with
  | none => simp [Bookmark.rest]
  | some r =>
      by_cases hoccurs : Bookmark.Occurs (mark since) r listed
      · rw [hoccurs.rest_append]
        simp [hoccurs]
      · rw [Bookmark.rest_snoc_of_not_occurs hoccurs, Bookmark.rest_of_not_occurs hoccurs]
        simp [hoccurs]

/-- A turn that meets no gap shows an unchanged page, passes one over, or reads it. -/
theorem Attempt.visit_cases {since : Option ℕ} {a : Attempt} {page : Page}
    {outcome : PageOutcome} (h : (a.visit since page outcome).gap = false) : a.gap = false ∧
      (unchanged since page ∧ a.visit since page outcome = a.shown page ∨
        mark since page = some page.id ∧
          (a.skipping ∧ a.visit since page outcome =
              { a.shown page with skipping := some page.id ≠ a.resume } ∨
            ¬ a.skipping ∧ a.visit since page outcome = (a.shown page).reading page .read)) := by
  unfold visit at h ⊢
  by_cases hid : page.id = ""
  · rw [if_pos hid] at h
    cases h
  rw [if_neg hid] at h ⊢
  by_cases hunchanged : unchanged since page
  · rw [if_pos hunchanged] at h ⊢
    exact ⟨h, Or.inl ⟨hunchanged, rfl⟩⟩
  rw [if_neg hunchanged] at h ⊢
  by_cases hskipping : a.skipping
  · rw [if_pos hskipping] at h ⊢
    exact ⟨h, Or.inr ⟨if_neg hunchanged, Or.inl ⟨hskipping, rfl⟩⟩⟩
  rw [if_neg hskipping] at h ⊢
  cases outcome with
  | read => exact ⟨h, Or.inr ⟨if_neg hunchanged, Or.inr ⟨hskipping, rfl⟩⟩⟩
  | partly => cases h
  | failed => cases h

theorem Attempt.Follows.visit {since : Option ℕ} {stored : List Page} {a : Attempt}
    (h : a.Follows since stored) {page : Page} {outcome : PageOutcome}
    (hgap : (a.visit since page outcome).gap = false) :
    (a.visit since page outcome).Follows since stored := by
  obtain ⟨-, ⟨hunchanged, hvisit⟩ | ⟨hmark, ⟨hskipping, hvisit⟩ | ⟨hskipping, hvisit⟩⟩⟩ :=
    visit_cases hgap
  · -- Nothing resumes after it and it is not read.
    rw [hvisit]
    have hmark : mark since page = none := if_pos hunchanged
    refine ⟨h.newest.snoc page, ?_, fun p => ?_⟩
    · simp only [shown, Bookmark.occurs_snoc, hmark, reduceCtorEq, or_false]
      exact h.skipping
    · simp only [shown, h.reads p, mem_afterResume_snoc]
      constructor
      · rintro (hbefore | ⟨hrest, hnew⟩)
        · exact Or.inl hbefore
        · exact Or.inr ⟨Or.inl hrest, hnew⟩
      · rintro (hbefore | ⟨hrest | ⟨rfl, -⟩, hnew⟩)
        · exact Or.inl hbefore
        · exact Or.inr ⟨hrest, hnew⟩
        · rw [hunchanged] at hnew
          cases hnew
  · -- Passed over, up to the page to resume after.
    rw [hvisit]
    obtain ⟨r, hr, hnot⟩ := h.skipping.1 hskipping
    refine ⟨h.newest.snoc page, ?_, fun p => ?_⟩
    · simp only [shown, Bookmark.occurs_snoc, hmark, Option.mem_def.1 hr]
      simp [hnot]
    · have hnone : ¬ ∀ r ∈ a.resume, Bookmark.Occurs (mark since) r a.listed :=
        fun hall => hnot (hall r hr)
      simp only [shown, h.reads p, mem_afterResume_snoc, hnone, and_false, or_false]
  · rw [hvisit]
    have hall : ∀ r ∈ a.resume, Bookmark.Occurs (mark since) r a.listed := by
      intro r hr
      by_contra hnot
      exact hskipping (h.skipping.2 ⟨r, hr, hnot⟩)
    refine ⟨h.newest.snoc page, ?_, fun p => ?_⟩
    · simp only [shown, reading]
      constructor
      · exact fun hskip => absurd hskip hskipping
      · rintro ⟨r, hr, hnot⟩
        exact absurd ((Bookmark.occurs_snoc page).2 (Or.inl (hall r hr))) hnot
    · have hnew : unchanged since page = false := by
        by_contra hunchanged
        rw [mark, if_pos (Bool.not_eq_false _ ▸ hunchanged)] at hmark
        cases hmark
      simp only [shown, reading, List.mem_append, List.mem_singleton, ← or_assoc, h.reads p,
        mem_afterResume_snoc]
      constructor
      · rintro ((hbefore | ⟨hrest, hold⟩) | rfl)
        · exact Or.inl hbefore
        · exact Or.inr ⟨Or.inl hrest, hold⟩
        · exact Or.inr ⟨Or.inr ⟨rfl, hall⟩, hnew⟩
      · rintro (hbefore | ⟨hrest | ⟨rfl, -⟩, hold⟩)
        · exact Or.inl (Or.inl hbefore)
        · exact Or.inl (Or.inr ⟨hrest, hold⟩)
        · exact Or.inr rfl

namespace Space

structure Sound (spec : SpaceSpec) (s : Space) : Prop where
  since : ∀ scan ∈ s.active, ∀ w ∈ scan.since, ∃ c ∈ s.committed, c.newest = some w
  attempt : ∀ scan ∈ s.active, ∀ a ∈ scan.attempt, a.gap = false →
    a.Follows scan.since scan.stored
  committed : ∀ c ∈ s.committed, Latest c.newest c.listed
  cursors : ∀ row ∈ s.cursors, row.scope = spec.scope → row.Live →
    ∃ c ∈ s.committed, c.newest = some row.position.position

variable {spec : SpaceSpec} {s s' : Space}

theorem sound_of_isInitial (h : s.IsInitial spec) : s.Sound spec := by
  obtain ⟨hactive, -, hcommitted, hcursors⟩ := h
  refine ⟨fun scan hscan => ?_, fun scan hscan => ?_, fun c hc => ?_, fun row hrow hscope => ?_⟩
  · rw [hactive] at hscan
    cases hscan
  · rw [hactive] at hscan
    cases hscan
  · rw [hcommitted] at hc
    cases hc
  · exact absurd hscope (hcursors row hrow)

/-- What stores no watermark only has to answer for the scan it leaves. -/
theorem Sound.of_active (hs : s.Sound spec) (hcommitted : s'.committed = s.committed)
    (hcursors : ∀ row ∈ s'.cursors, row.Live → row ∈ s.cursors)
    (hactive : ∀ scan ∈ s'.active, (∀ w ∈ scan.since, ∃ c ∈ s.committed, c.newest = some w) ∧
      ∀ a ∈ scan.attempt, a.gap = false → a.Follows scan.since scan.stored) : s'.Sound spec := by
  refine ⟨fun scan hscan => ?_, fun scan hscan => (hactive scan hscan).2, ?_, ?_⟩
  · rw [hcommitted]
    exact (hactive scan hscan).1
  · rw [hcommitted]
    exact hs.committed
  · intro row hrow hscope hlive
    rw [hcommitted]
    exact hs.cursors row (hcursors row hrow hlive) hscope hlive

theorem Sound.kept (hs : s.Sound spec) (hactive : s'.active = s.active)
    (hcommitted : s'.committed = s.committed)
    (hcursors : ∀ row ∈ s'.cursors, row.Live → row ∈ s.cursors) : s'.Sound spec :=
  hs.of_active hcommitted hcursors fun scan hscan =>
    ⟨hs.since scan (hactive ▸ hscan), hs.attempt scan (hactive ▸ hscan)⟩

theorem Sound.ended (hs : s.Sound spec) : Sound spec { s with active := none } :=
  hs.of_active rfl (fun _ hrow _ => hrow) fun scan hscan => absurd hscan (Option.not_mem_none scan)

theorem Sound.withAttempt (hs : s.Sound spec) {scan : SpaceScan} (hscan : s.active = some scan)
    {a : Attempt} (ha : a.gap = false → a.Follows scan.since scan.stored) :
    (s.withAttempt scan a).Sound spec := by
  refine hs.of_active rfl (fun _ hrow _ => hrow) fun scan' hscan' => ?_
  obtain rfl := Option.some.inj hscan'
  refine ⟨hs.since scan hscan, fun a' ha' => ?_⟩
  obtain rfl := Option.some.inj ha'
  exact ha

theorem Sound.launch (hs : s.Sound spec) (mode : ScanMode) : (s.launch spec mode).Sound spec := by
  refine hs.of_active rfl (fun _ hrow _ => hrow) fun scan hscan => ?_
  obtain rfl := Option.some.inj hscan
  refine ⟨fun w hw => ?_, fun a ha => absurd ha (Option.not_mem_none a)⟩
  obtain ⟨row, hrow, hscope, hlive, rfl⟩ := exists_cursor_of_watermarkOf hw
  exact hs.cursors row hrow hscope hlive

theorem Sound.report (hs : s.Sound spec) {scan : SpaceScan} {a : Attempt}
    (hscan : s.active = some scan) (ha : scan.attempt = some a) :
    (s.report scan a).Sound spec := by
  refine hs.of_active rfl (fun _ hrow _ => hrow) fun scan' hscan' => ?_
  obtain rfl := Option.some.inj hscan'
  refine ⟨hs.since scan hscan, fun a' ha' hgap => ?_⟩
  obtain rfl := Option.some.inj ha'
  have hold := hs.attempt scan hscan a ha hgap
  refine ⟨hold.newest, hold.skipping, fun page => ?_⟩
  simp only [List.mem_append, List.not_mem_nil, or_false]
  exact hold.reads page

theorem Sound.crash (hs : s.Sound spec) {scan : SpaceScan} (hscan : s.active = some scan) :
    Sound spec { s with active := some { scan with attempt := none } } := by
  refine hs.of_active rfl (fun _ hrow _ => hrow) fun scan' hscan' => ?_
  obtain rfl := Option.some.inj hscan'
  exact ⟨hs.since scan hscan, fun a ha => absurd ha (Option.not_mem_none a)⟩

theorem finish_of_complete {row : SourceScan} {scan : SpaceScan} {a : Attempt}
    (h : ¬ (scan.gap || a.incomplete)) : s.finish spec row scan a =
      { s with
        active := none
        cursors := commitProposals s.cursors row
          [(completedFetch spec.scope "1" a.newest : ScanTask Unit _)] s.clock
        completed := completion scan a :: s.completed
        committed := if a.newest.isSome then some (completion scan a) else s.committed } :=
  if_neg h

theorem Sound.finish (hs : s.Sound spec) (row : SourceScan) {scan : SpaceScan} {a : Attempt}
    (hscan : s.active = some scan) (ha : scan.attempt = some a) :
    (s.finish spec row scan a).Sound spec := by
  by_cases hgap : scan.gap || a.incomplete
  · unfold Space.finish
    rw [if_pos hgap]
    exact hs.ended
  rw [finish_of_complete hgap]
  have hclean : a.gap = false := by
    unfold Attempt.incomplete at hgap
    simp only [Bool.or_eq_true, not_or, Bool.not_eq_true] at hgap
    exact hgap.2.1
  have hfollows := hs.attempt scan hscan a ha hclean
  have hversion : ("1" : String) ≠ "" := by decide
  refine ⟨fun _ h => absurd h (Option.not_mem_none _), fun _ h => absurd h (Option.not_mem_none _),
    fun c hc => ?_, fun c hc hscope hlive => ?_⟩
  · dsimp only at hc
    split_ifs at hc
    · obtain rfl := Option.some.inj hc
      exact hfollows.newest
    · exact hs.committed c hc
  · rcases position_of_mem_commitProposals spec.scope_ne_empty hversion
      (fun t ht => List.mem_singleton.1 ht) hc hscope with ⟨hold, hnone⟩ | ⟨-, hpos⟩
    · have hnewest : a.newest = none := hnone.resolve_left (List.cons_ne_nil _ _)
      simp only [hnewest, Option.isSome_none, Bool.false_eq_true, if_false]
      exact hs.cursors c hold hscope hlive
    · simp only [hpos, Option.isSome_some, if_true]
      exact ⟨_, rfl, hpos⟩

theorem step_attempt {f : SpaceScan → Attempt → Option Space}
    (h : (s.active.bind fun scan => scan.attempt.bind fun a => f scan a) = some s') :
    ∃ scan a, s.active = some scan ∧ scan.attempt = some a ∧ f scan a = some s' := by
  obtain ⟨scan, hscan, h⟩ := Option.bind_eq_some_iff.1 h
  obtain ⟨a, ha, h⟩ := Option.bind_eq_some_iff.1 h
  exact ⟨scan, a, hscan, ha, h⟩

theorem Sound.step {act : SpaceAction} (hs : s.Sound spec) (h : step spec s act = some s') :
    s'.Sound spec := by
  cases act with
  | tick ms => cases h; exact hs.kept rfl rfl fun _ hrow _ => hrow
  | publish id dated => cases h; exact hs.kept rfl rfl fun _ hrow _ => hrow
  | launch mode =>
      simp only [Space.step] at h
      split_ifs at h
      cases h
      exact hs.launch mode
  | lease usable =>
      obtain ⟨scan, hscan, h⟩ := Option.bind_eq_some_iff.1 h
      split_ifs at h
      · cases h
        exact hs.withAttempt hscan fun _ => Attempt.follows_start _ _ _
      · cases h
        exact hs.withAttempt hscan fun _ => Attempt.follows_start _ _ _
  | list ids =>
      obtain ⟨scan, a, hscan, ha, h⟩ := step_attempt h
      split_ifs at h
      cases h
      refine hs.withAttempt hscan fun hgap => ?_
      have hold := hs.attempt scan hscan a ha hgap
      exact ⟨hold.newest, hold.skipping, hold.reads⟩
  | visit outcome =>
      obtain ⟨scan, a, hscan, ha, h⟩ := step_attempt h
      cases hqueue : a.queue with
      | nil => rw [hqueue] at h; cases h
      | cons page queue =>
          rw [hqueue] at h
          cases h
          refine hs.withAttempt hscan fun hgap => ?_
          have hold := hs.attempt scan hscan a ha (Attempt.visit_cases hgap).1
          have hrest : Attempt.Follows scan.since scan.stored { a with queue } :=
            ⟨hold.newest, hold.skipping, hold.reads⟩
          exact hrest.visit hgap
  | report =>
      obtain ⟨scan, a, hscan, ha, h⟩ := step_attempt h
      split_ifs at h
      cases h
      exact hs.report hscan ha
  | crash =>
      obtain ⟨scan, hscan, rfl⟩ := Option.map_eq_some_iff.1 h
      exact hs.crash hscan
  | finish row =>
      obtain ⟨scan, a, hscan, ha, h⟩ := step_attempt h
      split_ifs at h
      cases h
      exact hs.finish row hscan ha
  | abandon => cases h; exact hs.ended
  | retire reason =>
      cases h
      refine hs.kept rfl rfl fun row hrow hlive => ?_
      obtain ⟨old, hmem, heq, -⟩ := mem_invalidate hrow
      exact heq hlive ▸ hmem

abbrev Reached (spec : SpaceSpec) : Space → Prop :=
  Machine.Reachable (step spec) (fun _ _ => True) (IsInitial spec)

theorem Reached.sound (hs : Reached spec s) : s.Sound spec :=
  Machine.Reachable.invariant (fun _ h => sound_of_isInitial h)
    (fun _ _ _ h _ hstep => h.step hstep) hs

/-- A page counts as unchanged if it is dated no later than what the scan that left the
watermark was shown. -/
theorem Sound.unchanged_iff (hs : s.Sound spec) {scan : SpaceScan} (hscan : s.active = some scan)
    (page : Page) : unchanged scan.since page = false ↔
      scan.since = none ∨ ∀ c ∈ s.committed, ¬ c.Outdates page := by
  cases hsince : scan.since with
  | none => simp [unchanged]
  | some w =>
      obtain ⟨c, hc, hnewest⟩ := hs.since scan hscan w hsince
      have hiff := c.unchanged_iff (hs.committed c hc) hnewest page
      rw [Option.mem_def.1 hc]
      constructor
      · rintro hnew
        refine Or.inr fun d hd houtdates => ?_
        obtain rfl := Option.some.inj hd
        rw [hiff.2 houtdates] at hnew
        cases hnew
      · rintro (hnone | hall)
        · cases hnone
        · exact Bool.eq_false_iff.2 fun h => hall c rfl (hiff.1 h)

/-- A complete scan reads a listed revision if an earlier attempt of it did, or if its
last attempt neither passes the page over on resuming nor finds the revision outdated by
what the scan that left the watermark was shown. -/
theorem Sound.read_iff (hs : s.Sound spec) {row : SourceScan} {scan : SpaceScan} {a : Attempt}
    {done : CompleteScan} (hscan : s.active = some scan) (ha : scan.attempt = some a)
    (h : s.step spec (.finish row) = some s') (hdone : s'.completed = done :: s.completed) :
    done.listed = a.listed ∧ ∀ page, page ∈ done.read ↔ page ∈ a.before ∨
      page ∈ afterResume scan.since a.resume a.listed ∧
        (scan.since = none ∨ ∀ c ∈ s.committed, ¬ c.Outdates page) := by
  obtain ⟨scan', a', hscan', ha', h⟩ := step_attempt h
  cases hscan.symm.trans hscan'
  cases ha.symm.trans ha'
  split_ifs at h
  cases h
  by_cases hgap : scan.gap || a.incomplete
  · -- An incomplete scan adds none.
    unfold Space.finish at hdone
    rw [if_pos hgap] at hdone
    exact absurd (congrArg List.length hdone) (by simp)
  · rw [finish_of_complete hgap] at hdone
    obtain ⟨rfl, -⟩ := List.cons.inj hdone
    have hclean : a.gap = false := by
      unfold Attempt.incomplete at hgap
      simp only [Bool.or_eq_true, not_or, Bool.not_eq_true] at hgap
      exact hgap.2.1
    refine ⟨rfl, fun page => ?_⟩
    rw [← hs.unchanged_iff hscan]
    exact List.mem_append.trans ((hs.attempt scan hscan a ha hclean).reads page)

/-- Nothing that was not read before, by the last complete scan or by any of them, goes
unread in the next one, if and only if no such revision is outdated by what the scan that
left the watermark was shown, or passed over on resuming without having been read. -/
theorem complete_scan_misses_nothing_iff (hs : Reached spec s) {row : SourceScan}
    {scan : SpaceScan} {a : Attempt} {done : CompleteScan} (hscan : s.active = some scan)
    (ha : scan.attempt = some a) (h : step spec s (.finish row) = some s')
    (hdone : s'.completed = done :: s.completed) :
    done.listed = a.listed ∧ ∀ last ∈ s.completed.head?,
      ∀ seen ∈ [last.read, s.completed.flatMap (·.read)],
        (∀ page ∈ done.listed, page ∉ seen → page ∈ done.read) ↔
          ∀ page ∈ done.listed, page ∉ seen → page ∈ a.before ∨
            page ∈ afterResume scan.since a.resume a.listed ∧
              (scan.since = none ∨ ∀ c ∈ s.committed, ¬ c.Outdates page) := by
  have hread := (Reached.sound hs).read_iff hscan ha h hdone
  refine ⟨hread.1, fun last _ seen _ => ?_⟩
  constructor
  · intro hall page hpage hnew
    exact (hread.2 page).1 (hall page hpage hnew)
  · intro hall page hpage hnew
    exact (hread.2 page).2 (hall page hpage hnew)

def docs : SpaceSpec := { spaceKey := "DOCS", spaceId := "100", spaceId_ne := by decide }

def scanRow : SourceScan := { id := 1, startedAt := 0 }

def scanAll (mode : ScanMode) : List SpaceAction :=
  [.launch mode, .lease true, .list ["a", "b"], .visit .read, .visit .read]

theorem reached_of_run {as : List SpaceAction}
    (h : Machine.run (step docs) (fun _ _ => True) {} as = some s) : Reached docs s :=
  (Machine.Reachable.start
    ⟨rfl, rfl, rfl, fun _ hrow => absurd hrow List.not_mem_nil⟩).run h

/-- A page edited between two scans is read by the second. -/
theorem complete_scan_reads_an_edit : ∃ done : CompleteScan, ∃ page ∈ done.listed,
    page.id = "a" ∧ page.createdAt = some 10 ∧ page ∈ done.read := by
  let edited : Page := { id := "a", version := 3, createdAt := some 10 }
  have hrun : (Machine.run (step docs) (fun _ _ => True) {} ([.publish "a" true,
      .publish "b" true] ++ scanAll .full ++ [.finish scanRow, .tick 10, .publish "a" true] ++
        scanAll .incremental)).any fun s => ∃ last ∈ s.completed.head?, ∃ scan ∈ s.active,
          ∃ a ∈ scan.attempt, (step docs s (.finish scanRow)).any fun s' =>
            ∃ done ∈ s'.completed.head?, s'.completed = done :: s.completed ∧
              edited ∈ done.listed ∧ edited ∉ last.read ∧
                ∀ page ∈ done.listed, page ∉ last.read → page ∈ a.before ∨
                  page ∈ afterResume scan.since a.resume a.listed ∧
                    (scan.since = none ∨ ∀ c ∈ s.committed, ¬ c.Outdates page) := by decide +kernel
  obtain ⟨s, hs, hobs⟩ := (Option.any_eq_true _ _).1 hrun
  obtain ⟨last, hlast, scan, hscan, a, ha, hobs⟩ := of_decide_eq_true hobs
  obtain ⟨s', hstep, hobs⟩ := (Option.any_eq_true _ _).1 hobs
  obtain ⟨done, -, hdone, hlisted, hunread, hclear⟩ := of_decide_eq_true hobs
  obtain ⟨-, hiff⟩ := complete_scan_misses_nothing_iff (reached_of_run hs) hscan ha hstep hdone
  have hall := (hiff last hlast last.read List.mem_cons_self).2 hclear
  exact ⟨done, edited, hlisted, rfl, rfl, hall edited hlisted hunread⟩

/-- A page edited after it was listed, and before a page that is listed later: the newest
revision shown is after the edit, which no later scan reads. -/
theorem complete_scan_misses_an_edit : ∃ s s' : Space, ∃ last done : CompleteScan, ∃ page,
    Reached docs s ∧ step docs s (.finish scanRow) = some s' ∧ s.completed = [last] ∧
      s'.completed = [done, last] ∧ page ∈ done.listed ∧ page ∈ s'.pages ∧
        page ∉ last.read ∧ page ∉ done.read := by
  let edited : Page := { id := "a", version := 3, createdAt := some 10 }
  have hrun : (Machine.run (step docs) (fun _ _ => True) {} ([.publish "a" true,
      .publish "b" true, .launch .full, .lease true, .list ["a"], .visit .read, .tick 10,
        .publish "a" true, .tick 10, .publish "b" true, .list ["b"], .visit .read,
          .finish scanRow] ++ scanAll .incremental)).any fun s =>
            (step docs s (.finish scanRow)).any fun s' => ∃ last ∈ s.completed.head?,
              ∃ done ∈ s'.completed.head?, s.completed = [last] ∧ s'.completed = [done, last] ∧
                edited ∈ done.listed ∧ edited ∈ s'.pages ∧ edited ∉ last.read ∧
                  edited ∉ done.read := by decide +kernel
  obtain ⟨s, hs, hobs⟩ := (Option.any_eq_true _ _).1 hrun
  obtain ⟨s', hstep, hobs⟩ := (Option.any_eq_true _ _).1 hobs
  obtain ⟨last, -, done, -, hbefore, hafter, hmissed⟩ := of_decide_eq_true hobs
  exact ⟨s, s', last, done, edited, reached_of_run hs, hstep, hbefore, hafter, hmissed⟩

/-- A page edited between two attempts: the second passes it over, and proposes a
watermark that is not before the edit. -/
theorem resumed_scan_misses_an_edit : ∃ s s' : Space, ∃ done : CompleteScan, ∃ page,
    Reached docs s ∧ step docs s (.finish scanRow) = some s' ∧ s'.committed = some done ∧
      page ∈ done.listed ∧ page ∈ s'.pages ∧ page ∉ done.read ∧ done.Outdates page := by
  let edited : Page := { id := "a", version := 3, createdAt := some 10 }
  have hrun : (Machine.run (step docs) (fun _ _ => True) {} [.publish "a" true,
      .publish "b" true, .launch .full, .lease true, .list ["a", "b"], .visit .read, .report,
        .crash, .tick 10, .publish "a" true, .lease true, .list ["a", "b"], .visit .read,
          .visit .read]).any fun s => (step docs s (.finish scanRow)).any fun s' =>
            ∃ done ∈ s'.committed, edited ∈ done.listed ∧ edited ∈ s'.pages ∧
              edited ∉ done.read ∧ done.Outdates edited := by decide +kernel
  obtain ⟨s, hs, hobs⟩ := (Option.any_eq_true _ _).1 hrun
  obtain ⟨s', hstep, hobs⟩ := (Option.any_eq_true _ _).1 hobs
  obtain ⟨done, hdone, hmissed⟩ := of_decide_eq_true hobs
  exact ⟨s, s', done, edited, reached_of_run hs, hstep, hdone, hmissed⟩

end Space

end IcebergSST.Confluence
