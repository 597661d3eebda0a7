import IcebergSST.Detect
import IcebergSST.Findings
import IcebergSST.Library.Machine
import IcebergSST.Manifest

/-!
# Announcing what a scan opened

The findings of a deployment, its scans, at most one active for a source, and the outbox
of announcements. A scan that completes with complete coverage queues one announcement for
each enabled channel and each finding that the scan itself opened or re-opened and the
channel wants; no other scan queues any. Which scan opened a finding is history: the rows
only keep the scans that saw it first and last, and the trail its re-openings.
-/

namespace IcebergSST

open Detection (Severity severityRank)

structure AnnouncedFinding where
  id : ℕ
  sourceId : ℕ
  severity : Severity
  state : FindingState := .opened
  suppressedAt : Option ℕ := none
  firstSeenScanId : ℕ
  lastSeenScanId : ℕ
  deriving DecidableEq

def AnnouncedFinding.Active (f : AnnouncedFinding) : Bool :=
  f.state = .opened && f.suppressedAt.isNone

structure EventFilter where
  minSeverity : Option Severity := none
  sourceIds : List ℕ := []
  deriving DecidableEq

structure NotificationChannel where
  id : ℕ
  enabled : Bool := true
  eventFilter : EventFilter := {}
  deriving DecidableEq

def channelWants (channel : NotificationChannel) (f : AnnouncedFinding) : Bool :=
  if channel.eventFilter.minSeverity.any fun least => severityRank f.severity < severityRank least
  then false
  else ¬ (channel.eventFilter.sourceIds ≠ [] ∧ f.sourceId ∉ channel.eventFilter.sourceIds)

structure NotificationDelivery where
  channelId : ℕ
  findingId : ℕ
  scanId : ℕ
  deriving DecidableEq

structure AnnouncementLife where
  findings : List AnnouncedFinding := []
  /-- The finding and the scan of each re-opening event that ingest wrote. -/
  reopened : List (ℕ × ℕ) := []
  channels : List NotificationChannel := []
  deliveries : List NotificationDelivery := []
  /-- The active scan of a source. -/
  active : ℕ → Option ℕ := fun _ => none
  /-- Every scan so far. -/
  scans : List ℕ := []
  /-- Every finding that a scan opened or re-opened, with that scan. -/
  openings : List (ℕ × ℕ) := []

inductive AnnouncementAction
  | configure (channels : List NotificationChannel)
  | launch (sourceId scan : ℕ)
  | firstSeen (sourceId id : ℕ) (severity : Severity) (suppressedAt : Option ℕ)
  | seenAgain (sourceId id : ℕ) (severity : Severity) (suppressedAt : Option ℕ)
  | finish (sourceId : ℕ) (final : ScanStatus) (coverage : CoverageState) (mode : ScanMode)
  | triage (id : ℕ) (target : FindingState)
  | hide (id : ℕ) (suppressedAt : Option ℕ)

namespace AnnouncementLife

def onFinding (w : AnnouncementLife) (id : ℕ) (g : AnnouncedFinding → AnnouncedFinding) :
    AnnouncementLife :=
  { w with findings := w.findings.map fun f => if f.id = id then g f else f }

/-- Both queries, a finding of the first not taken again from the second. -/
def newlyOpenedFindings (w : AnnouncementLife) (scan : ℕ) : List AnnouncedFinding :=
  let firstSeen := w.findings.filter fun f => f.firstSeenScanId = scan && f.Active
  let reopened := w.findings.filter fun f =>
    f.lastSeenScanId = scan && f.Active && (f.id, scan) ∈ w.reopened
  firstSeen ++ reopened.filter (· ∉ firstSeen)

/-- What a scan has to announce: `enabled` channels and what they want. -/
def announcements (w : AnnouncementLife) (scan : ℕ) : List NotificationDelivery :=
  (w.newlyOpenedFindings scan).flatMap fun f =>
    (w.channels.filter fun c => c.enabled && channelWants c f).map fun c => ⟨c.id, f.id, scan⟩

/-- A delivery that is already there is not queued again. -/
def enqueueForScan (w : AnnouncementLife) (scan : ℕ) : AnnouncementLife :=
  { w with deliveries := w.announcements scan ∪ w.deliveries }

/-- What a full scan resolves: the active findings of its source that it did not see. -/
def reconcileScan (w : AnnouncementLife) (sourceId scan : ℕ) : AnnouncementLife :=
  { w with findings := w.findings.map fun f =>
      if f.sourceId = sourceId ∧ f.Active ∧ f.lastSeenScanId ≠ scan then
        { f with state := .resolved }
      else f }

def setActive (w : AnnouncementLife) (sourceId : ℕ) (scan : Option ℕ) : AnnouncementLife :=
  { w with active := Function.update w.active sourceId scan }

def finished (w : AnnouncementLife) (sourceId scan : ℕ) (final : ScanStatus)
    (coverage : CoverageState) (mode : ScanMode) : AnnouncementLife :=
  let ended := w.setActive sourceId none
  if final = .completed ∧ coverage = .complete then
    (if mode = .full then ended.reconcileScan sourceId scan else ended).enqueueForScan scan
  else ended

/-- What a sighting makes of a row, the suppressions having decided whether it is hidden. -/
def refreshed (scan : ℕ) (severity : Severity) (suppressedAt : Option ℕ) (f : AnnouncedFinding) :
    AnnouncedFinding :=
  { f with
    lastSeenScanId := scan
    severity
    suppressedAt
    state := if f.state = .resolved then .opened else f.state }

def reopening (w : AnnouncementLife) (f : AnnouncedFinding) (scan : ℕ) : AnnouncementLife :=
  if f.state = .resolved then
    { w with
      reopened := w.reopened ++ [(f.id, scan)]
      openings := w.openings ++ [(f.id, scan)] }
  else w

def step (w : AnnouncementLife) : AnnouncementAction → Option AnnouncementLife
  | .configure channels => some { w with channels }
  | .launch sourceId scan =>
      if w.active sourceId = none ∧ scan ∉ w.scans then
        some { w.setActive sourceId (some scan) with scans := w.scans ++ [scan] }
      else none
  | .firstSeen sourceId id severity suppressedAt =>
      (w.active sourceId).bind fun scan =>
        if ∃ f ∈ w.findings, f.id = id then none
        else some { w with
          findings := w.findings ++ [{
            id, sourceId, severity, suppressedAt
            firstSeenScanId := scan
            lastSeenScanId := scan }]
          openings := w.openings ++ [(id, scan)] }
  | .seenAgain sourceId id severity suppressedAt =>
      (w.active sourceId).bind fun scan =>
        (w.findings.find? fun f => f.id = id && f.sourceId = sourceId).bind fun f =>
          -- One re-opening event for a finding and a scan: the index refuses a second.
          if f.state = .resolved ∧ (f.id, scan) ∈ w.reopened then none
          else some ((w.reopening f scan).onFinding id (refreshed scan severity suppressedAt))
  | .finish sourceId final coverage mode =>
      (w.active sourceId).map fun scan => w.finished sourceId scan final coverage mode
  | .triage id target =>
      some (w.onFinding id fun f =>
        if target ∈ legalTransitions f.state then { f with state := target } else f)
  | .hide id suppressedAt => some (w.onFinding id fun f => { f with suppressedAt })

def IsNew (w : AnnouncementLife) : Prop :=
  w.findings = [] ∧ w.reopened = [] ∧ w.deliveries = [] ∧ (∀ sourceId, w.active sourceId = none) ∧
    w.scans = [] ∧ w.openings = []

/-- Every active finding that the scan opened has been queued for every enabled channel
that wants it. -/
def Announced (w : AnnouncementLife) (scan : ℕ) : Prop :=
  ∀ f ∈ w.findings, (f.id, scan) ∈ w.openings → f.Active →
    ∀ c ∈ w.channels, c.enabled → channelWants c f → ⟨c.id, f.id, scan⟩ ∈ w.deliveries

structure Sound (w : AnnouncementLife) : Prop where
  ids : (w.findings.map (·.id)).Nodup
  firstSeen : ∀ f ∈ w.findings, (f.id, f.firstSeenScanId) ∈ w.openings
  reopened : ∀ o ∈ w.reopened, o ∈ w.openings
  opened : ∀ o ∈ w.openings, ∃ f ∈ w.findings, f.id = o.1 ∧
    (f.firstSeenScanId = o.2 ∨ o ∈ w.reopened)
  launched : ∀ sourceId, ∀ scan ∈ w.active sourceId, scan ∈ w.scans
  distinct : ∀ sourceId, ∀ scan ∈ w.active sourceId, ∀ sourceId', scan ∈ w.active sourceId' →
    sourceId' = sourceId
  known : ∀ o ∈ w.openings, o.2 ∈ w.scans
  /-- While a scan is active nothing else sees what it re-opened. -/
  current : ∀ f ∈ w.findings, ∀ sourceId, ∀ scan ∈ w.active sourceId, (f.id, scan) ∈ w.reopened →
    f.sourceId = sourceId ∧ f.lastSeenScanId = scan
  once : w.deliveries.Nodup
  own : ∀ d ∈ w.deliveries, (d.findingId, d.scanId) ∈ w.openings

variable {w w' : AnnouncementLife}

theorem IsNew.sound (hw : w.IsNew) : w.Sound := by
  obtain ⟨hfindings, hreopened, hdeliveries, hactive, hscans, hopenings⟩ := hw
  constructor <;> simp [hfindings, hreopened, hdeliveries, hactive, hopenings]

theorem Sound.eq_of_id (hs : w.Sound) {f f' : AnnouncedFinding} (hf : f ∈ w.findings)
    (hf' : f' ∈ w.findings) (h : f.id = f'.id) : f = f' :=
  List.inj_on_of_nodup_map hs.ids hf hf' h

/-- What may change of a row: it is seen by the active scan of its source, or nothing that
says who opened it. -/
structure Keeps (w : AnnouncementLife) (f f' : AnnouncedFinding) : Prop where
  id : f'.id = f.id
  sourceId : f'.sourceId = f.sourceId
  firstSeen : f'.firstSeenScanId = f.firstSeenScanId
  lastSeen : f'.lastSeenScanId = f.lastSeenScanId ∨ f'.lastSeenScanId ∈ w.active f.sourceId

theorem Sound.mapFindings (hs : w.Sound) {g : AnnouncedFinding → AnnouncedFinding}
    (hg : ∀ f ∈ w.findings, w.Keeps f (g f)) :
    Sound { w with findings := w.findings.map g } := by
  refine ⟨?_, ?_, hs.reopened, ?_, hs.launched, hs.distinct, hs.known, ?_, hs.once, hs.own⟩
  · have hids : w.findings.map ((fun f => f.id) ∘ g) = w.findings.map (·.id) :=
      List.map_congr_left fun f hf => (hg f hf).id
    change ((w.findings.map g).map (·.id)).Nodup
    rw [List.map_map, hids]
    exact hs.ids
  · intro f' hf'
    obtain ⟨f, hf, rfl⟩ := List.mem_map.1 hf'
    rw [(hg f hf).id, (hg f hf).firstSeen]
    exact hs.firstSeen f hf
  · intro o ho
    obtain ⟨f, hf, hid, hseen⟩ := hs.opened o ho
    refine ⟨g f, List.mem_map_of_mem hf, (hg f hf).id.trans hid, ?_⟩
    rw [(hg f hf).firstSeen]
    exact hseen
  · intro f' hf' sourceId scan hscan hreopened
    obtain ⟨f, hf, rfl⟩ := List.mem_map.1 hf'
    rw [(hg f hf).id] at hreopened
    obtain ⟨hsource, hlast⟩ := hs.current f hf sourceId scan hscan hreopened
    refine ⟨(hg f hf).sourceId.trans hsource, ?_⟩
    rcases (hg f hf).lastSeen with hsame | hnew
    · exact hsame.trans hlast
    · rw [hsource] at hnew
      exact Option.some.inj (hnew.symm.trans hscan)

theorem Sound.onFinding (hs : w.Sound) {id : ℕ} {g : AnnouncedFinding → AnnouncedFinding}
    (hg : ∀ f ∈ w.findings, f.id = id → w.Keeps f (g f)) : (w.onFinding id g).Sound := by
  apply hs.mapFindings
  intro f hf
  by_cases hid : f.id = id
  · rw [if_pos hid]
    exact hg f hf hid
  · rw [if_neg hid]
    exact ⟨rfl, rfl, rfl, Or.inl rfl⟩

theorem Sound.launch (hs : w.Sound) {sourceId scan : ℕ} (hnew : scan ∉ w.scans) :
    Sound { w.setActive sourceId (some scan) with scans := w.scans ++ [scan] } := by
  have hactive : ∀ sourceId', ∀ scan' ∈ Function.update w.active sourceId (some scan) sourceId',
      (sourceId' = sourceId ∧ scan' = scan) ∨ scan' ∈ w.active sourceId' := by
    intro sourceId' scan' h
    by_cases hsource : sourceId' = sourceId
    · subst hsource
      rw [Function.update_self] at h
      exact Or.inl ⟨rfl, (Option.some.inj h).symm⟩
    · rw [Function.update_of_ne hsource] at h
      exact Or.inr h
  refine ⟨hs.ids, hs.firstSeen, hs.reopened, hs.opened, ?_, ?_, ?_, ?_, hs.once, hs.own⟩
  · intro sourceId' scan' h
    rcases hactive sourceId' scan' h with ⟨-, rfl⟩ | h
    · exact List.mem_append_right _ (List.mem_singleton_self _)
    · exact List.mem_append_left _ (hs.launched sourceId' scan' h)
  · intro sourceId₁ scan' h₁ sourceId₂ h₂
    rcases hactive sourceId₁ scan' h₁ with ⟨rfl, rfl⟩ | hold₁
    · rcases hactive sourceId₂ scan' h₂ with ⟨rfl, -⟩ | hold₂
      · rfl
      · exact absurd (hs.launched sourceId₂ scan' hold₂) hnew
    · rcases hactive sourceId₂ scan' h₂ with ⟨-, rfl⟩ | hold₂
      · exact absurd (hs.launched sourceId₁ scan' hold₁) hnew
      · exact hs.distinct sourceId₁ scan' hold₁ sourceId₂ hold₂
  · intro o ho
    exact List.mem_append_left _ (hs.known o ho)
  · intro f hf sourceId' scan' h hreopened
    rcases hactive sourceId' scan' h with ⟨-, rfl⟩ | h
    · exact absurd (hs.known _ (hs.reopened _ hreopened)) hnew
    · exact hs.current f hf sourceId' scan' h hreopened

theorem Sound.ended (hs : w.Sound) (sourceId : ℕ) : (w.setActive sourceId none).Sound := by
  have hactive : ∀ sourceId', ∀ scan ∈ Function.update w.active sourceId none sourceId',
      scan ∈ w.active sourceId' := by
    intro sourceId' scan h
    by_cases hsource : sourceId' = sourceId
    · subst hsource
      rw [Function.update_self] at h
      cases h
    · rw [Function.update_of_ne hsource] at h
      exact h
  refine ⟨hs.ids, hs.firstSeen, hs.reopened, hs.opened, ?_, ?_, hs.known, ?_, hs.once, hs.own⟩
  · exact fun sourceId' scan h => hs.launched sourceId' scan (hactive sourceId' scan h)
  · intro sourceId₁ scan h₁ sourceId₂ h₂
    exact hs.distinct sourceId₁ scan (hactive _ _ h₁) sourceId₂ (hactive _ _ h₂)
  · intro f hf sourceId' scan h
    exact hs.current f hf sourceId' scan (hactive sourceId' scan h)

theorem Sound.firstSight (hs : w.Sound) {sourceId scan : ℕ} (hscan : scan ∈ w.active sourceId)
    {f : AnnouncedFinding} (hnew : ∀ f' ∈ w.findings, f'.id ≠ f.id)
    (hfirst : f.firstSeenScanId = scan) :
    Sound { w with findings := w.findings ++ [f], openings := w.openings ++ [(f.id, scan)] } := by
  refine ⟨?_, ?_, ?_, ?_, hs.launched, hs.distinct, ?_, ?_, hs.once, ?_⟩
  · change ((w.findings ++ [f]).map (·.id)).Nodup
    rw [List.map_append, List.map_singleton, ← List.concat_eq_append]
    apply hs.ids.concat
    intro hmem
    obtain ⟨f', hf', hid⟩ := List.mem_map.1 hmem
    exact hnew f' hf' hid
  · intro f' hf'
    rcases List.mem_append.1 hf' with hf' | hf'
    · exact List.mem_append_left _ (hs.firstSeen f' hf')
    · obtain rfl := List.mem_singleton.1 hf'
      rw [hfirst]
      exact List.mem_append_right _ (List.mem_singleton_self _)
  · exact fun o ho => List.mem_append_left _ (hs.reopened o ho)
  · intro o ho
    rcases List.mem_append.1 ho with ho | ho
    · obtain ⟨f', hf', hid, hseen⟩ := hs.opened o ho
      exact ⟨f', List.mem_append_left _ hf', hid, hseen⟩
    · obtain rfl := List.mem_singleton.1 ho
      exact ⟨f, List.mem_append_right _ (List.mem_singleton_self f), rfl, Or.inl hfirst⟩
  · intro o ho
    rcases List.mem_append.1 ho with ho | ho
    · exact hs.known o ho
    · rw [List.mem_singleton.1 ho]
      exact hs.launched sourceId scan hscan
  · intro f' hf' sourceId' scan' hscan' hreopened
    rcases List.mem_append.1 hf' with hf' | hf'
    · exact hs.current f' hf' sourceId' scan' hscan' hreopened
    · obtain rfl := List.mem_singleton.1 hf'
      obtain ⟨old, hold, hid, -⟩ := hs.opened _ (hs.reopened _ hreopened)
      exact absurd hid (hnew old hold)
  · exact fun d hd => List.mem_append_left _ (hs.own d hd)

/-- The event of a re-opening, its row being the active scan's already. -/
theorem Sound.reopening (hs : w.Sound) {f : AnnouncedFinding} (hf : f ∈ w.findings) {scan : ℕ}
    (hscan : scan ∈ w.active f.sourceId) (hlast : f.lastSeenScanId = scan) :
    Sound { w with
      reopened := w.reopened ++ [(f.id, scan)]
      openings := w.openings ++ [(f.id, scan)] } := by
  refine ⟨hs.ids, ?_, ?_, ?_, hs.launched, hs.distinct, ?_, ?_, hs.once, ?_⟩
  · exact fun f' hf' => List.mem_append_left _ (hs.firstSeen f' hf')
  · intro o ho
    rcases List.mem_append.1 ho with ho | ho
    · exact List.mem_append_left _ (hs.reopened o ho)
    · exact List.mem_append_right _ ho
  · intro o ho
    rcases List.mem_append.1 ho with ho | ho
    · obtain ⟨f', hf', hid, hseen⟩ := hs.opened o ho
      exact ⟨f', hf', hid, hseen.imp_right (List.mem_append_left _)⟩
    · refine ⟨f, hf, ?_, Or.inr (List.mem_append_right _ ho)⟩
      rw [List.mem_singleton.1 ho]
  · intro o ho
    rcases List.mem_append.1 ho with ho | ho
    · exact hs.known o ho
    · rw [List.mem_singleton.1 ho]
      exact hs.launched f.sourceId scan hscan
  · intro f' hf' sourceId' scan' hscan' hreopened
    rcases List.mem_append.1 hreopened with hreopened | hreopened
    · exact hs.current f' hf' sourceId' scan' hscan' hreopened
    · obtain ⟨hid, rfl⟩ := Prod.mk.inj (List.mem_singleton.1 hreopened)
      obtain rfl := hs.eq_of_id hf' hf hid
      exact ⟨hs.distinct sourceId' scan' hscan' f'.sourceId hscan, hlast⟩
  · exact fun d hd => List.mem_append_left _ (hs.own d hd)

theorem Sound.seenAgain (hs : w.Sound) {f : AnnouncedFinding} (hf : f ∈ w.findings) {scan : ℕ}
    (hscan : scan ∈ w.active f.sourceId) (severity : Severity) (suppressedAt : Option ℕ) :
    ((w.reopening f scan).onFinding f.id (refreshed scan severity suppressedAt)).Sound := by
  have hseen : (w.onFinding f.id (refreshed scan severity suppressedAt)).Sound := by
    apply hs.onFinding
    intro f' hf' hid
    obtain rfl := hs.eq_of_id hf' hf hid
    exact ⟨rfl, rfl, rfl, Or.inr hscan⟩
  unfold AnnouncementLife.reopening
  by_cases hresolved : f.state = .resolved
  · rw [if_pos hresolved]
    have hmem : refreshed scan severity suppressedAt f ∈
        (w.onFinding f.id (refreshed scan severity suppressedAt)).findings :=
      List.mem_map.2 ⟨f, hf, if_pos rfl⟩
    exact hseen.reopening hmem hscan rfl
  · rw [if_neg hresolved]
    exact hseen

theorem mem_newlyOpenedFindings {f : AnnouncedFinding} {scan : ℕ} :
    f ∈ w.newlyOpenedFindings scan ↔ f ∈ w.findings ∧ f.Active ∧
      (f.firstSeenScanId = scan ∨ f.lastSeenScanId = scan ∧ (f.id, scan) ∈ w.reopened) := by
  unfold newlyOpenedFindings
  simp only [List.mem_append, List.mem_filter, Bool.and_eq_true, decide_eq_true_eq]
  by_cases hfirst : f.firstSeenScanId = scan
  · simp only [hfirst, true_and, true_or, and_true]
    constructor
    · rintro (h | ⟨⟨hmem, ⟨-, hactive⟩, -⟩, -⟩)
      · exact h
      · exact ⟨hmem, hactive⟩
    · exact Or.inl
  · simp only [hfirst, false_and, and_false, false_or, not_false_eq_true, and_true]
    constructor
    · rintro ⟨hmem, ⟨hlast, hactive⟩, hreopened⟩
      exact ⟨hmem, hactive, hlast, hreopened⟩
    · rintro ⟨hmem, hactive, hlast, hreopened⟩
      exact ⟨hmem, ⟨hlast, hactive⟩, hreopened⟩

theorem mem_announcements {d : NotificationDelivery} {scan : ℕ} :
    d ∈ w.announcements scan ↔ ∃ f ∈ w.newlyOpenedFindings scan, ∃ c ∈ w.channels,
      c.enabled ∧ channelWants c f ∧ d = ⟨c.id, f.id, scan⟩ := by
  unfold announcements
  simp only [List.mem_flatMap, List.mem_map, List.mem_filter, Bool.and_eq_true]
  constructor
  · rintro ⟨f, hf, c, ⟨hc, henabled, hwants⟩, rfl⟩
    exact ⟨f, hf, c, hc, henabled, hwants, rfl⟩
  · rintro ⟨f, hf, c, hc, henabled, hwants, rfl⟩
    exact ⟨f, hf, c, ⟨hc, henabled, hwants⟩, rfl⟩

/-- The queries find only what the scan opened. -/
theorem Sound.newlyOpened (hs : w.Sound) {f : AnnouncedFinding} {scan : ℕ}
    (hf : f ∈ w.newlyOpenedFindings scan) : (f.id, scan) ∈ w.openings := by
  obtain ⟨hmem, -, hopened⟩ := mem_newlyOpenedFindings.1 hf
  rcases hopened with rfl | ⟨-, hreopened⟩
  · exact hs.firstSeen f hmem
  · exact hs.reopened _ hreopened

theorem Sound.enqueueForScan (hs : w.Sound) (scan : ℕ) : (w.enqueueForScan scan).Sound := by
  refine ⟨hs.ids, hs.firstSeen, hs.reopened, hs.opened, hs.launched, hs.distinct, hs.known,
    hs.current, ?_, ?_⟩
  · exact hs.once.union (w.announcements scan)
  · intro d hd
    rcases List.mem_union_iff.1 hd with hd | hd
    · obtain ⟨f, hf, c, -, -, -, rfl⟩ := mem_announcements.1 hd
      exact hs.newlyOpened hf
    · exact hs.own d hd

/-- A second round for the same scan over the same rows queues nothing. -/
theorem enqueueForScan_again (w : AnnouncementLife) (scan : ℕ) :
    ∀ d, d ∈ ((w.enqueueForScan scan).enqueueForScan scan).deliveries ↔
      d ∈ (w.enqueueForScan scan).deliveries := by
  intro d
  change d ∈ w.announcements scan ∪ (w.announcements scan ∪ w.deliveries) ↔
    d ∈ w.announcements scan ∪ w.deliveries
  simp only [List.mem_union_iff]
  tauto

/-- The queries find all that the scan opened, where its row says that it saw it last. -/
theorem Sound.announced (hs : w.Sound) {scan : ℕ}
    (hlast : ∀ f ∈ w.findings, (f.id, scan) ∈ w.reopened → f.lastSeenScanId = scan) :
    (w.enqueueForScan scan).Announced scan := by
  intro f hf hopening hactive c hc henabled hwants
  apply List.mem_union_iff.2
  left
  refine mem_announcements.2 ⟨f, ?_, c, hc, henabled, hwants, rfl⟩
  obtain ⟨f', hf', hid, hopened⟩ := hs.opened _ hopening
  obtain rfl := hs.eq_of_id hf' hf hid
  refine mem_newlyOpenedFindings.2 ⟨hf, hactive, ?_⟩
  rcases hopened with hfirst | hreopened
  · exact Or.inl hfirst
  · exact Or.inr ⟨hlast f' hf hreopened, hreopened⟩

theorem Sound.reconcileScan (hs : w.Sound) (sourceId scan : ℕ) :
    (w.reconcileScan sourceId scan).Sound := by
  apply hs.mapFindings
  intro f _
  split_ifs <;> exact ⟨rfl, rfl, rfl, Or.inl rfl⟩

theorem Sound.gate (hs : w.Sound) (sourceId scan : ℕ) (mode : ScanMode) :
    Sound (if mode = .full then (w.setActive sourceId none).reconcileScan sourceId scan
      else w.setActive sourceId none) := by
  by_cases hmode : mode = .full
  · rw [if_pos hmode]
    exact (hs.ended sourceId).reconcileScan sourceId scan
  · rw [if_neg hmode]
    exact hs.ended sourceId

theorem Sound.finished (hs : w.Sound) (sourceId scan : ℕ) (final : ScanStatus)
    (coverage : CoverageState) (mode : ScanMode) :
    (w.finished sourceId scan final coverage mode).Sound := by
  unfold AnnouncementLife.finished
  dsimp only
  by_cases hcomplete : final = .completed ∧ coverage = .complete
  · rw [if_pos hcomplete]
    exact (hs.gate sourceId scan mode).enqueueForScan scan
  · rw [if_neg hcomplete]
    exact hs.ended sourceId

theorem Sound.finished_announced (hs : w.Sound) {sourceId scan : ℕ}
    (hscan : scan ∈ w.active sourceId) (mode : ScanMode) :
    (w.finished sourceId scan .completed .complete mode).Announced scan := by
  unfold AnnouncementLife.finished
  dsimp only
  rw [if_pos ⟨rfl, rfl⟩]
  apply (hs.gate sourceId scan mode).announced
  by_cases hmode : mode = .full
  · rw [if_pos hmode]
    intro f' hf' hreopened
    obtain ⟨f, hf, rfl⟩ := List.mem_map.1 hf'
    have hsame : ∀ g : AnnouncedFinding,
        (if f.sourceId = sourceId ∧ f.Active ∧ f.lastSeenScanId ≠ scan then
          { f with state := .resolved } else f) = g →
        g.id = f.id ∧ g.lastSeenScanId = f.lastSeenScanId := by
      rintro g rfl
      split_ifs <;> exact ⟨rfl, rfl⟩
    obtain ⟨hid, hseen⟩ := hsame _ rfl
    rw [hid] at hreopened
    rw [hseen]
    exact (hs.current f hf sourceId scan hscan hreopened).2
  · rw [if_neg hmode]
    intro f hf hreopened
    exact (hs.current f hf sourceId scan hscan hreopened).2

theorem Sound.step (hs : w.Sound) {a : AnnouncementAction} (h : w.step a = some w') :
    w'.Sound := by
  cases a with
  | configure channels =>
      obtain rfl := Option.some.inj h
      exact ⟨hs.ids, hs.firstSeen, hs.reopened, hs.opened, hs.launched, hs.distinct, hs.known,
        hs.current, hs.once, hs.own⟩
  | launch sourceId scan =>
      obtain ⟨⟨-, hnew⟩, hput⟩ := Option.ite_none_right_eq_some.1 h
      obtain rfl := Option.some.inj hput
      exact hs.launch hnew
  | firstSeen sourceId id severity suppressedAt =>
      obtain ⟨scan, hscan, hrow⟩ := Option.bind_eq_some_iff.1 h
      obtain ⟨hnew, hput⟩ := Option.ite_none_left_eq_some.1 hrow
      push Not at hnew
      obtain rfl := Option.some.inj hput
      exact hs.firstSight hscan hnew rfl
  | seenAgain sourceId id severity suppressedAt =>
      obtain ⟨scan, hscan, hfind⟩ := Option.bind_eq_some_iff.1 h
      obtain ⟨f, hf, hrow⟩ := Option.bind_eq_some_iff.1 hfind
      obtain ⟨-, hput⟩ := Option.ite_none_left_eq_some.1 hrow
      obtain rfl := Option.some.inj hput
      have hmatch : f.id = id ∧ f.sourceId = sourceId := by simpa using List.find?_some hf
      obtain ⟨rfl, rfl⟩ := hmatch
      exact hs.seenAgain (List.mem_of_find?_eq_some hf) hscan severity suppressedAt
  | finish sourceId final coverage mode =>
      obtain ⟨scan, -, rfl⟩ := Option.map_eq_some_iff.1 h
      exact hs.finished sourceId scan final coverage mode
  | triage id target =>
      obtain rfl := Option.some.inj h
      apply hs.onFinding
      intro f _ _
      split_ifs <;> exact ⟨rfl, rfl, rfl, Or.inl rfl⟩
  | hide id suppressedAt =>
      obtain rfl := Option.some.inj h
      apply hs.onFinding
      intro f _ _
      exact ⟨rfl, rfl, rfl, Or.inl rfl⟩

/-- In every run a scan that completes with complete coverage has queued whatever it opened
itself that is still active, for every enabled channel that wants it; nothing is queued
twice, nor by a scan that did not open it. -/
theorem own_openings_are_announced
    (hw : Machine.Reachable step (fun _ _ => True) IsNew w) :
    (∀ sourceId scan mode w', scan ∈ w.active sourceId →
      w.step (.finish sourceId .completed .complete mode) = some w' → w'.Announced scan) ∧
    w.deliveries.Nodup ∧ ∀ d ∈ w.deliveries, (d.findingId, d.scanId) ∈ w.openings := by
  have hs : w.Sound := by
    apply hw.invariant
    · intro w hnew
      exact hnew.sound
    · intro w a w' hs _ hstep
      exact hs.step hstep
  refine ⟨?_, hs.once, hs.own⟩
  intro sourceId scan mode w' hscan hfinish
  obtain ⟨scan', hscan', rfl⟩ := Option.map_eq_some_iff.1 hfinish
  obtain rfl : scan' = scan := Option.some.inj (hscan'.symm.trans hscan)
  exact hs.finished_announced hscan mode

def twoChannels : List NotificationChannel :=
  [{ id := 1, eventFilter := { minSeverity := some .high } },
    { id := 2, eventFilter := { sourceIds := [9] } }]

/-- A finding that is resolved and comes back is announced once more. -/
theorem own_openings_are_announced_when_reopened : ∃ w : AnnouncementLife,
    w.deliveries = [⟨1, 5, 2⟩, ⟨1, 5, 1⟩] ∧
      (∀ sourceId scan mode w', scan ∈ w.active sourceId →
        w.step (.finish sourceId .completed .complete mode) = some w' → w'.Announced scan) ∧
      w.deliveries.Nodup ∧ ∀ d ∈ w.deliveries, (d.findingId, d.scanId) ∈ w.openings := by
  have hrun : (Machine.run step (fun _ _ => True) {}
      [.configure twoChannels, .launch 1 1, .firstSeen 1 5 .high none,
        .finish 1 .completed .complete .full, .triage 5 .resolved, .launch 1 2,
        .seenAgain 1 5 .critical none, .firstSeen 1 6 .low none,
        .finish 1 .completed .complete .incremental]).any fun w =>
          w.deliveries = [⟨1, 5, 2⟩, ⟨1, 5, 1⟩] := by
    decide +kernel
  have hreach : Machine.Reachable step (fun _ _ => True) IsNew {} :=
    .start ⟨rfl, rfl, rfl, fun _ => rfl, rfl, rfl⟩
  obtain ⟨w, hw, hdeliveries⟩ := hreach.exists_of_run hrun
  exact ⟨w, hdeliveries, own_openings_are_announced hw⟩

/-- What a partial scan opened is not announced by a complete one that sees it again. -/
theorem openings_of_a_partial_scan_are_not_announced : ∃ w w' : AnnouncementLife,
    Machine.Reachable step (fun _ _ => True) IsNew w ∧ w.active 1 = some 2 ∧
      w.step (.finish 1 .completed .complete .full) = some w' ∧
      ∃ f ∈ w'.findings, ∃ c ∈ w'.channels, (f.id, 1) ∈ w'.openings ∧ f.lastSeenScanId = 2 ∧
        f.Active ∧ c.enabled ∧ channelWants c f ∧
          ∀ d ∈ w'.deliveries, ¬ (d.channelId = c.id ∧ d.findingId = f.id) := by
  have hrun : (Machine.run step (fun _ _ => True) {}
      [.configure twoChannels, .launch 1 1, .firstSeen 1 5 .critical none,
        .finish 1 .partly .partly .full, .launch 1 2, .seenAgain 1 5 .critical none]).any fun w =>
          w.active 1 = some 2 ∧ (w.step (.finish 1 .completed .complete .full)).any fun w' =>
            ∃ f ∈ w'.findings, ∃ c ∈ w'.channels, (f.id, 1) ∈ w'.openings ∧ f.lastSeenScanId = 2 ∧
              f.Active ∧ c.enabled ∧ channelWants c f ∧
                ∀ d ∈ w'.deliveries, ¬ (d.channelId = c.id ∧ d.findingId = f.id) := by
    decide +kernel
  have hreach : Machine.Reachable step (fun _ _ => True) IsNew {} :=
    .start ⟨rfl, rfl, rfl, fun _ => rfl, rfl, rfl⟩
  obtain ⟨w, hw, hactive, hfinish⟩ := hreach.exists_of_run hrun
  obtain ⟨w', hw', h'⟩ := (Option.any_eq_true _ _).1 hfinish
  exact ⟨w, w', hw, hactive, hw', of_decide_eq_true h'⟩

end AnnouncementLife

end IcebergSST
