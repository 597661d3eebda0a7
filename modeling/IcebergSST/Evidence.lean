import IcebergSST.Detect
import IcebergSST.Findings
import IcebergSST.Library.Machine
import IcebergSST.Library.WriteBack
import IcebergSST.Text

/-!
# The evidence behind a resolution

One finding, its remediation actions and what its trail says of its re-openings, with the
transactions that write them taken statement by statement under READ COMMITTED. An
analyst's request loads the finding and, where the policy asks for evidence, reads the
trail and then the actions, which it keeps locked until it ends. The finding it does not
lock, and of the finding it writes back only what it changed.

The action a resolution rests on still stands when it commits, in every run. That action
answers for the finding as it then is where the severity was not raised to the bar since
the finding was loaded and no re-opening was committed since the trail was read.
-/

namespace IcebergSST

open Detection (Severity severityRank)

structure EvidencePolicy where
  minSeverity : Option Severity := none
  deriving DecidableEq

def EvidencePolicy.appliesTo (policy : EvidencePolicy) (severity : Severity) : Bool :=
  match policy.minSeverity with
  | none => false
  | some least => severityRank least ≤ severityRank severity

inductive RemediationVerification
  | unverified
  | verified
  deriving DecidableEq

structure RemediationAction where
  id : ℕ
  createdAt : ℤ
  /-- The `url` of each link; a scrubbed link has none. -/
  evidenceLinks : List (Option String)
  verification : RemediationVerification := .unverified
  retractedAt : Option ℤ := none
  deriving DecidableEq

namespace RemediationAction

def carriesUsableEvidence (action : RemediationAction) : Bool :=
  action.evidenceLinks.any fun url => strip (url.getD "") ≠ ""

/-- What `qualifying_action_exists` asks of an action. -/
def Qualifies (since : Option ℤ) (action : RemediationAction) : Bool :=
  action.retractedAt.isNone && action.carriesUsableEvidence && since.all (· ≤ action.createdAt)

/-- A retracted or verified action is a conflict, and nothing is written. -/
def verify (action : RemediationAction) : RemediationAction :=
  if action.retractedAt.isNone ∧ action.verification = .unverified then
    { action with verification := .verified }
  else action

def retract (action : RemediationAction) (now : ℤ) : RemediationAction :=
  if action.retractedAt.isNone then { action with retractedAt := some now } else action

end RemediationAction

structure EvidencedFinding where
  state : FindingState := .opened
  resolution : Option FindingResolution := none
  severity : Severity
  deriving DecidableEq

structure EvidenceTables where
  finding : EvidencedFinding
  actions : List RemediationAction := []
  /-- When each re-opening event of the trail was made. -/
  reopenings : List ℤ := []
  deriving DecidableEq

namespace EvidenceTables

def lastReopenedAt (t : EvidenceTables) : Option ℤ := t.reopenings.max?

/-- The finding is under the bar, or carries an action since it was last re-opened. -/
def HasEvidence (policy : EvidencePolicy) (t : EvidenceTables) : Prop :=
  policy.appliesTo t.finding.severity → ∃ action ∈ t.actions, action.Qualifies t.lastReopenedAt

instance (policy : EvidencePolicy) (t : EvidenceTables) : Decidable (t.HasEvidence policy) :=
  inferInstanceAs (Decidable (_ → _))

end EvidenceTables

inductive TriageStage
  | loaded
  | trailRead (since : Option ℤ)
  /-- The rows its locking read has to lock. -/
  | actionsRead (since : Option ℤ) (ids : List ℕ)
  | authorized (since : Option ℤ)
  deriving DecidableEq

/-- The re-opening the authority of a request dates from, once it has any. -/
def TriageStage.authorizedSince : TriageStage → Option (Option ℤ)
  | .authorized since => some since
  | _ => none

/-- An analyst's request to move the finding, with the finding as it loaded it. -/
structure TriageRequest where
  loaded : EvidencedFinding
  target : FindingState
  stage : TriageStage := .loaded
  deriving DecidableEq

def TriageRequest.needsEvidence (policy : EvidencePolicy) (request : TriageRequest) : Bool :=
  request.target = .resolved && policy.appliesTo request.loaded.severity

structure EvidenceLife where
  policy : EvidencePolicy
  tables : EvidenceTables
  /-- Which request holds the row of an action. -/
  locks : ℕ → Option ℕ := fun _ => none
  requests : ℕ → Option TriageRequest := fun _ => none
  /-- The finding as each submission or reconciliation under way has loaded it. -/
  scans : ℕ → Option EvidencedFinding := fun _ => none
  /-- The tables at the instant of each resolution by an analyst, the latest first. -/
  resolutions : List EvidenceTables := []

inductive EvidenceAction
  | load (k : ℕ) (target : FindingState)
  | readTrail (k : ℕ)
  | readActions (k : ℕ)
  | lockActions (k : ℕ)
  | commit (k : ℕ) (now : ℤ)
  | abort (k : ℕ)
  | record (id : ℕ) (createdAt : ℤ) (evidenceLinks : List (Option String))
  | verify (id : ℕ)
  | retract (id : ℕ) (now : ℤ)
  | look (j : ℕ)
  | sighting (j : ℕ) (severity : Severity) (now : ℤ)
  | unseen (j : ℕ)

namespace EvidenceLife

def setRequest (w : EvidenceLife) (k : ℕ) (request : Option TriageRequest) : EvidenceLife :=
  { w with requests := Function.update w.requests k request }

@[simp] theorem setRequest_self (w : EvidenceLife) (k : ℕ) (request : Option TriageRequest) :
    (w.setRequest k request).requests k = request := by
  unfold setRequest
  exact Function.update_self k request w.requests

theorem setRequest_of_ne (w : EvidenceLife) {k k' : ℕ} (request : Option TriageRequest)
    (h : k' ≠ k) : (w.setRequest k request).requests k' = w.requests k' := by
  unfold setRequest
  exact Function.update_of_ne h request w.requests

def lock (w : EvidenceLife) (k : ℕ) (ids : List ℕ) : EvidenceLife :=
  { w with locks := fun id => if id ∈ ids then some k else w.locks id }

def ended (w : EvidenceLife) (k : ℕ) : EvidenceLife :=
  { w with locks := fun id => if w.locks id = some k then none else w.locks id }.setRequest k none

def setTables (w : EvidenceLife) (tables : EvidenceTables) : EvidenceLife := { w with tables }

def moved (t : EvidenceTables) (request : TriageRequest) (now : ℤ) : EvidenceTables :=
  let resolution := if request.target = .resolved then some .manual else none
  { t with
    finding := { t.finding with
      state := Column.writeBack request.loaded.state request.target t.finding.state
      resolution := Column.writeBack request.loaded.resolution resolution t.finding.resolution }
    reopenings := if request.target = .opened then now :: t.reopenings else t.reopenings }

def seen (t : EvidenceTables) (loaded : EvidencedFinding) (severity : Severity) (now : ℤ) :
    EvidenceTables :=
  let finding := { t.finding with
    severity := Column.writeBack loaded.severity severity t.finding.severity }
  if loaded.state = .resolved then
    { t with
      finding := { finding with
        state := .opened
        resolution := Column.writeBack loaded.resolution none t.finding.resolution }
      reopenings := now :: t.reopenings }
  else { t with finding }

def unseen (t : EvidenceTables) : EvidenceTables :=
  { t with finding := { t.finding with state := .resolved, resolution := some .auto } }

def onAction (t : EvidenceTables) (id : ℕ) (f : RemediationAction → RemediationAction) :
    EvidenceTables :=
  { t with actions := t.actions.map fun action => if action.id = id then f action else action }

def commit (w : EvidenceLife) (k : ℕ) (request : TriageRequest) (now : ℤ) : EvidenceLife :=
  let tables := moved w.tables request now
  { (w.setTables tables).ended k with
    resolutions :=
      if request.target = .resolved then tables :: w.resolutions else w.resolutions }

def requestStep (w : EvidenceLife) (request : TriageRequest) : EvidenceAction → Option EvidenceLife
  | .readTrail k =>
      if request.stage = .loaded ∧ request.needsEvidence w.policy then
        some (w.setRequest k (some { request with stage := .trailRead w.tables.lastReopenedAt }))
      else none
  | .readActions k =>
      match request.stage with
      | .trailRead since =>
          some (w.setRequest k (some { request with
            stage := .actionsRead since (w.tables.actions.map (·.id)) }))
      | _ => none
  | .lockActions k =>
      match request.stage with
      | .actionsRead since ids =>
          -- The read waits for every row that another request holds.
          if ∃ id ∈ ids, w.locks id ≠ none then none
          else if ∃ action ∈ w.tables.actions, action.id ∈ ids ∧ action.Qualifies since then
            some ((w.lock k ids).setRequest k (some { request with stage := .authorized since }))
          else some (w.ended k)
      | _ => none
  | .commit k now =>
      match request.stage with
      | .loaded => if request.needsEvidence w.policy then none else some (w.commit k request now)
      | .authorized _ => some (w.commit k request now)
      | _ => none
  | .abort k => some (w.ended k)
  | _ => none

def step (w : EvidenceLife) : EvidenceAction → Option EvidenceLife
  | .load k target =>
      if w.requests k = none ∧ target ∈ legalTransitions w.tables.finding.state then
        some (w.setRequest k (some { loaded := w.tables.finding, target }))
      else none
  | .record id createdAt evidenceLinks =>
      if ∃ action ∈ w.tables.actions, action.id = id then none
      else some (w.setTables { w.tables with
        actions := w.tables.actions ++ [{ id, createdAt, evidenceLinks }] })
  | .verify id =>
      if w.locks id = none then
        some (w.setTables (onAction w.tables id RemediationAction.verify))
      else none
  | .retract id now =>
      if w.locks id = none then
        some (w.setTables (onAction w.tables id (RemediationAction.retract · now)))
      else none
  | .look j => some { w with scans := Function.update w.scans j (some w.tables.finding) }
  | .sighting j severity now =>
      (w.scans j).map fun loaded =>
        { w.setTables (seen w.tables loaded severity now) with
          scans := Function.update w.scans j none }
  | .unseen j =>
      (w.scans j).bind fun loaded =>
        -- the select found it open, and the conditional update still does
        if loaded.state = .opened ∧ w.tables.finding.state = .opened then
          some { w.setTables (unseen w.tables) with
            scans := Function.update w.scans j none }
        else none
  | .readTrail k => (w.requests k).bind fun request => w.requestStep request (.readTrail k)
  | .readActions k => (w.requests k).bind fun request => w.requestStep request (.readActions k)
  | .lockActions k => (w.requests k).bind fun request => w.requestStep request (.lockActions k)
  | .commit k now => (w.requests k).bind fun request => w.requestStep request (.commit k now)
  | .abort k => (w.requests k).bind fun request => w.requestStep request (.abort k)

/-- A resolution that commits where the finding is at or above the bar found it there when
it loaded it, and no later re-opening was committed since it read the trail. -/
def Steady (w : EvidenceLife) : EvidenceAction → Prop
  | .commit k _ => ∀ request ∈ w.requests k, request.target = .resolved →
      w.policy.appliesTo w.tables.finding.severity →
        w.policy.appliesTo request.loaded.severity ∧
          ∀ since ∈ request.stage.authorizedSince, w.tables.lastReopenedAt = since
  | _ => True

def AtRest (w : EvidenceLife) : Prop :=
  (∀ k, w.requests k = none) ∧ (∀ j, w.scans j = none) ∧ w.resolutions = []

variable {w w' : EvidenceLife} {k : ℕ}

/-- A request that is authorized holds the row of an action it may rest on. -/
structure Sound (w : EvidenceLife) : Prop where
  held : ∀ k, ∀ request ∈ w.requests k, ∀ since, request.stage = .authorized since →
    ∃ action ∈ w.tables.actions, w.locks action.id = some k ∧ action.Qualifies since
  evidenced : ∀ t ∈ w.resolutions, t.HasEvidence w.policy

theorem AtRest.sound (hw : w.AtRest) : w.Sound := by
  obtain ⟨hrequests, -, hresolutions⟩ := hw
  constructor
  · intro k request hrequest
    rw [hrequests k] at hrequest
    cases hrequest
  · intro t ht
    rw [hresolutions] at ht
    cases ht

/-- Nothing but a lock keeps an action as it is. -/
theorem Sound.setTables (hs : w.Sound) {tables : EvidenceTables}
    (hkeep : ∀ action ∈ w.tables.actions, w.locks action.id ≠ none → action ∈ tables.actions) :
    (w.setTables tables).Sound := by
  constructor
  · intro k request hrequest since hstage
    obtain ⟨action, hmem, hlock, hqualifies⟩ := hs.held k request hrequest since hstage
    have hlocked : w.locks action.id ≠ none := by
      rw [hlock]
      exact Option.some_ne_none k
    exact ⟨action, hkeep action hmem hlocked, hlock, hqualifies⟩
  · exact hs.evidenced

theorem mem_onAction {t : EvidenceTables} {id : ℕ} {f : RemediationAction → RemediationAction}
    {action : RemediationAction} (hmem : action ∈ t.actions) (hne : action.id ≠ id) :
    action ∈ (onAction t id f).actions :=
  List.mem_map.2 ⟨action, hmem, if_neg hne⟩

theorem Sound.onAction (hs : w.Sound) {id : ℕ} (hfree : w.locks id = none)
    (f : RemediationAction → RemediationAction) :
    (w.setTables (onAction w.tables id f)).Sound := by
  apply hs.setTables
  intro action hmem hlocked
  apply mem_onAction hmem
  intro hid
  exact hlocked (hid ▸ hfree)

theorem Sound.setScans (hs : w.Sound) (scans : ℕ → Option EvidencedFinding) :
    Sound { w with scans } := ⟨hs.held, hs.evidenced⟩

theorem Sound.setRequest (hs : w.Sound) {request : TriageRequest}
    (hstage : ∀ since, request.stage ≠ .authorized since) :
    (w.setRequest k (some request)).Sound := by
  constructor
  · intro k' request' hrequest since hauthorized
    by_cases hk : k' = k
    · subst hk
      rw [setRequest_self] at hrequest
      obtain rfl := Option.some.inj hrequest
      exact absurd hauthorized (hstage since)
    · rw [setRequest_of_ne w (some request) hk] at hrequest
      exact hs.held k' request' hrequest since hauthorized
  · exact hs.evidenced

theorem Sound.ended (hs : w.Sound) (k : ℕ) : (w.ended k).Sound := by
  constructor
  · intro k' request hrequest since hstage
    by_cases hk : k' = k
    · subst hk
      rw [EvidenceLife.ended, setRequest_self] at hrequest
      cases hrequest
    · rw [EvidenceLife.ended, setRequest_of_ne _ none hk] at hrequest
      obtain ⟨action, hmem, hlock, hqualifies⟩ := hs.held k' request hrequest since hstage
      refine ⟨action, hmem, ?_, hqualifies⟩
      change (if w.locks action.id = some k then none else w.locks action.id) = some k'
      rw [hlock, if_neg (by simpa using hk)]
  · exact hs.evidenced

/-- A locking read that finds an action to rest on has locked it. -/
theorem Sound.lock (hs : w.Sound) {ids : List ℕ} (hfree : ∀ id ∈ ids, w.locks id = none)
    {since : Option ℤ} (hfound : ∃ action ∈ w.tables.actions, action.id ∈ ids ∧
      action.Qualifies since) (request : TriageRequest) :
    ((w.lock k ids).setRequest k (some { request with stage := .authorized since })).Sound := by
  constructor
  · intro k' request' hrequest since' hstage
    by_cases hk : k' = k
    · subst hk
      rw [setRequest_self] at hrequest
      obtain rfl := Option.some.inj hrequest
      obtain rfl : since = since' := TriageStage.authorized.inj hstage
      obtain ⟨action, hmem, hid, hqualifies⟩ := hfound
      exact ⟨action, hmem, if_pos hid, hqualifies⟩
    · rw [setRequest_of_ne _ _ hk] at hrequest
      obtain ⟨action, hmem, hlock, hqualifies⟩ := hs.held k' request' hrequest since' hstage
      refine ⟨action, hmem, ?_, hqualifies⟩
      have hid : action.id ∉ ids := by
        intro hid
        rw [hfree _ hid] at hlock
        cases hlock
      exact (if_neg hid).trans hlock
  · exact hs.evidenced

/-- The evidence of a resolution whose commit finds the severity and the trail as the
request read them. -/
theorem Sound.moved_hasEvidence (hs : w.Sound) {request : TriageRequest}
    (hrequest : request ∈ w.requests k) (htarget : request.target = .resolved) {now : ℤ}
    (hcleared : request.stage = .loaded ∧ request.needsEvidence w.policy = false ∨
      ∃ since, request.stage = .authorized since)
    (hsteady : w.Steady (.commit k now)) : (moved w.tables request now).HasEvidence w.policy := by
  intro hpolicy
  obtain ⟨hloaded, hlast⟩ := hsteady request hrequest htarget hpolicy
  rcases hcleared with ⟨-, hneeds⟩ | ⟨since, hstage⟩
  · simp [TriageRequest.needsEvidence, htarget, hloaded] at hneeds
  · obtain ⟨action, hmem, -, hqualifies⟩ := hs.held k request hrequest since hstage
    have hreopened : (moved w.tables request now).lastReopenedAt = since := by
      rw [← hlast since (by rw [hstage]; rfl)]
      simp [moved, EvidenceTables.lastReopenedAt, htarget]
    rw [hreopened]
    exact ⟨action, hmem, hqualifies⟩

theorem Sound.commit (hs : w.Sound) {request : TriageRequest} (hrequest : request ∈ w.requests k)
    {now : ℤ}
    (hcleared : request.stage = .loaded ∧ request.needsEvidence w.policy = false ∨
      ∃ since, request.stage = .authorized since)
    (hsteady : w.Steady (.commit k now)) : (w.commit k request now).Sound := by
  have hended : ((w.setTables (moved w.tables request now)).ended k).Sound := by
    apply Sound.ended
    exact hs.setTables fun action hmem _ => hmem
  refine ⟨hended.held, ?_⟩
  intro t ht
  change t ∈ if request.target = .resolved then _ else _ at ht
  by_cases htarget : request.target = .resolved
  · rw [if_pos htarget] at ht
    rcases List.mem_cons.1 ht with rfl | ht
    · exact hs.moved_hasEvidence hrequest htarget hcleared hsteady
    · exact hs.evidenced t ht
  · rw [if_neg htarget] at ht
    exact hs.evidenced t ht

theorem Sound.requestStep (hs : w.Sound) {request : TriageRequest}
    (hrequest : request ∈ w.requests k) {a : EvidenceAction} (hsteady : w.Steady a)
    (ha : a = .readTrail k ∨ a = .readActions k ∨ a = .lockActions k ∨ (∃ now, a = .commit k now) ∨
      a = .abort k)
    (h : w.requestStep request a = some w') : w'.Sound := by
  rcases ha with rfl | rfl | rfl | ⟨now, rfl⟩ | rfl
  · obtain ⟨-, hput⟩ := Option.ite_none_right_eq_some.1 h
    obtain rfl := Option.some.inj hput
    exact hs.setRequest fun since => by simp
  · obtain ⟨loaded, target, stage⟩ := request
    cases stage with
    | trailRead since =>
        obtain rfl := Option.some.inj h
        exact hs.setRequest fun since => by simp
    | _ => cases h
  · obtain ⟨loaded, target, stage⟩ := request
    cases stage with
    | actionsRead since ids =>
        obtain ⟨hfree, hread⟩ := Option.ite_none_left_eq_some.1 h
        push Not at hfree
        by_cases hfound : ∃ action ∈ w.tables.actions, action.id ∈ ids ∧ action.Qualifies since
        · rw [if_pos hfound] at hread
          obtain rfl := Option.some.inj hread
          exact hs.lock hfree hfound _
        · rw [if_neg hfound] at hread
          obtain rfl := Option.some.inj hread
          exact hs.ended k
    | _ => cases h
  · obtain ⟨loaded, target, stage⟩ := request
    cases stage with
    | loaded =>
        obtain ⟨hneeds, hput⟩ := Option.ite_none_left_eq_some.1 h
        obtain rfl := Option.some.inj hput
        exact hs.commit hrequest (Or.inl ⟨rfl, Bool.eq_false_iff.2 hneeds⟩) hsteady
    | authorized since =>
        obtain rfl := Option.some.inj h
        exact hs.commit hrequest (Or.inr ⟨since, rfl⟩) hsteady
    | _ => cases h
  · obtain rfl := Option.some.inj h
    exact hs.ended k

theorem Sound.step (hs : w.Sound) {a : EvidenceAction} (hsteady : w.Steady a)
    (h : w.step a = some w') : w'.Sound := by
  cases a with
  | load k target =>
      obtain ⟨-, hput⟩ := Option.ite_none_right_eq_some.1 h
      obtain rfl := Option.some.inj hput
      exact hs.setRequest fun since => by simp
  | record id createdAt evidenceLinks =>
      obtain ⟨-, hput⟩ := Option.ite_none_left_eq_some.1 h
      obtain rfl := Option.some.inj hput
      exact hs.setTables fun action hmem _ => List.mem_append_left _ hmem
  | verify id | retract id now =>
      obtain ⟨hfree, hput⟩ := Option.ite_none_right_eq_some.1 h
      obtain rfl := Option.some.inj hput
      exact hs.onAction hfree _
  | look j =>
      obtain rfl := Option.some.inj h
      exact hs.setScans _
  | sighting j severity now =>
      obtain ⟨loaded, -, rfl⟩ := Option.map_eq_some_iff.1 h
      apply Sound.setScans
      apply hs.setTables
      intro action hmem _
      unfold seen
      by_cases hresolved : loaded.state = .resolved
      · rw [if_pos hresolved]
        exact hmem
      · rw [if_neg hresolved]
        exact hmem
  | unseen j =>
      obtain ⟨loaded, -, hrow⟩ := Option.bind_eq_some_iff.1 h
      obtain ⟨-, hput⟩ := Option.ite_none_right_eq_some.1 hrow
      obtain rfl := Option.some.inj hput
      apply Sound.setScans
      exact hs.setTables fun action hmem _ => hmem
  | readTrail k | readActions k | lockActions k | commit k now | abort k =>
      obtain ⟨request, hrequest, hstep⟩ := Option.bind_eq_some_iff.1 h
      exact hs.requestStep hrequest hsteady (by simp) hstep

/-- In every run whose resolutions commit over the severity and the trail they read, the
evidence of each of them stood at the instant it was committed. -/
theorem resolution_has_evidence (hw : Machine.Reachable step Steady AtRest w) :
    ∀ t ∈ w.resolutions, t.HasEvidence w.policy := by
  have hs : w.Sound := by
    apply hw.invariant
    · intro w hrest
      exact hrest.sound
    · intro w a w' hs hsteady hstep
      exact hs.step hsteady hstep
  exact hs.evidenced

instance (w : EvidenceLife) (a : EvidenceAction) : Decidable (w.Steady a) :=
  match a with
  | .commit k _ => inferInstanceAs (Decidable (∀ request ∈ w.requests k, _ → _ → _ ∧
      ∀ since ∈ request.stage.authorizedSince, _))
  | .load .. | .readTrail _ | .readActions _ | .lockActions _ | .abort _ | .record .. | .verify _
  | .retract .. | .look _ | .sighting .. | .unseen _ => .isTrue trivial

def atRest (severity : Severity) (reopenings : List ℤ) : EvidenceLife where
  policy := { minSeverity := some .high }
  tables := { finding := { severity }, reopenings }

theorem atRest_atRest (severity : Severity) (reopenings : List ℤ) :
    (atRest severity reopenings).AtRest := ⟨fun _ => rfl, fun _ => rfl, rfl⟩

/-- The action from before the re-opening does not count, and a scan meets the finding
once more before the commit. -/
theorem resolution_has_evidence_of_a_later_action : ∃ w : EvidenceLife,
    w.resolutions.map (·.finding.severity) = [.critical] ∧
      ∀ t ∈ w.resolutions, t.HasEvidence w.policy := by
  have hrun : (Machine.run step Steady (atRest .high [50])
      [.record 1 10 [some "ticket/1"], .load 0 .resolved, .readTrail 0,
        .record 2 60 [none, some "ticket/2"], .readActions 0, .lockActions 0, .look 1,
        .sighting 1 .critical 70, .commit 0 80]).any fun w =>
          w.resolutions.map (·.finding.severity) = [.critical] := by
    decide +kernel
  have hreach : Machine.Reachable step Steady AtRest (atRest .high [50]) :=
    .start (atRest_atRest .high [50])
  obtain ⟨w, hw, hsevere⟩ := hreach.exists_of_run hrun
  exact ⟨w, hsevere, resolution_has_evidence hw⟩

/-- A scan raises the severity to the bar between the load and the commit. -/
theorem resolution_can_lack_evidence : ∃ w : EvidenceLife,
    Machine.Reachable step (fun _ _ => True) AtRest w ∧
      ∃ t ∈ w.resolutions, t.actions = [] ∧ ¬ t.HasEvidence w.policy := by
  have hrun : (Machine.run step (fun _ _ => True) (atRest .low [])
      [.load 0 .resolved, .look 1, .sighting 1 .critical 20, .commit 0 30]).any fun w =>
        ∃ t ∈ w.resolutions, t.actions = [] ∧ ¬ t.HasEvidence w.policy := by
    decide +kernel
  have hreach : Machine.Reachable step (fun _ _ => True) AtRest (atRest .low []) :=
    .start (atRest_atRest .low [])
  exact hreach.exists_of_run hrun

/-- A colleague resolves the finding and a scan re-opens it, after the trail was read; the
action the request rests on is from before. -/
theorem evidence_can_predate_a_reopening : ∃ w : EvidenceLife,
    Machine.Reachable step (fun _ _ => True) AtRest w ∧
      ∃ t ∈ w.resolutions, t.reopenings = [30] ∧ t.actions.map (·.createdAt) = [10] ∧
        ¬ t.HasEvidence w.policy := by
  have hrun : (Machine.run step (fun _ _ => True) (atRest .high [])
      [.record 1 10 [some "ticket/1"], .load 0 .resolved, .readTrail 0, .load 1 .resolved,
        .readTrail 1, .readActions 1, .lockActions 1, .commit 1 20, .look 2,
        .sighting 2 .high 30, .readActions 0, .lockActions 0, .commit 0 40]).any fun w =>
          ∃ t ∈ w.resolutions, t.reopenings = [30] ∧ t.actions.map (·.createdAt) = [10] ∧
            ¬ t.HasEvidence w.policy := by
    decide +kernel
  have hreach : Machine.Reachable step (fun _ _ => True) AtRest (atRest .high []) :=
    .start (atRest_atRest .high [])
  exact hreach.exists_of_run hrun

end EvidenceLife

end IcebergSST
