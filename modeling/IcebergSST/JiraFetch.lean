import IcebergSST.JiraIssue

/-!
# Fetching a window of issues

An issue is read with everything attached to it, then the point the fetch has come to is
published. The published point must not run ahead of what was reported, and a fetch that
reports no gap must have had all there is of each issue.
-/

namespace IcebergSST.Jira

open Content Adf

namespace IssueSite

variable (c : JiraConnector) (s : IssueSite)

def attachmentReference (a : IssueAttachment) : Option IssueReference :=
  if a.id ≠ [] then some (.text a.id)
  else if PyStr.strip a.filename ≠ [] then some (.text (PyStr.strip a.filename)) else none

def attachmentUnit (a : IssueAttachment) (e : Extracted) : Option IssueUnit :=
  s.unit c (some (pyStr "attachment:" ++ PyStr.strip a.filename)) e.text .attachment
    (.attachment (PyStr.strip a.filename) a.mimeType e.truncated)

/-- One row of the field; what is no object is passed over. -/
def attachmentRow : Option IssueAttachment → IssueStretch
  | none => ⟨[], none⟩
  | some a =>
      let name := PyStr.strip a.filename
      let reference := attachmentReference a
      if name = [] ∨ PyStr.strip a.content = [] then
        ⟨[.failed .invalidMetadata .attachment reference], none⟩
      else if a.size.any ((c.limits.maxInputBytes : ℤ) < ·) then
        ⟨[.failed .sizeLimit .attachment reference], none⟩
      else
        match a.download with
        | .raised .credentialError => ⟨[], some .credentialError⟩
        | .raised .rateLimited => ⟨[], some .rateLimited⟩
        | .raised .unexpected => ⟨[], some .unexpected⟩
        | .raised .permissionDenied =>
            ⟨[.failed .permissionDenied .attachment reference], none⟩
        | .raised .connectorError | .tooLarge =>
            ⟨[.failed .connectorError .attachment reference], none⟩
        | .data bytes =>
            extraction (.text (if a.id ≠ [] then a.id else name)) (s.attachmentUnit c a)
              (c.readers.extractText c.limits bytes name)

def attachmentUnits : IssueStretch :=
  Stretch.concat ((s.attachments.getD []).map (s.attachmentRow c))

/-- What `_collection` makes of an exception of a collection. -/
def collectionGap (name : String) : Raised → Option UnitEvent
  | .permissionDenied =>
      some (.scopeGap .permissionDenied (some (.collection c.key s.issueId (pyStr name))))
  | .connectorError =>
      some (.scopeGap .connectorError (some (.collection c.key s.issueId (pyStr name))))
  | _ => none

def collection (wanted : Bool) (name : String) (units : IssueStretch) : IssueStretch :=
  if wanted then units.caught (s.collectionGap c name) else ⟨[], none⟩

def collections : IssueStretch :=
  (s.collection c c.includeComments "comments" (s.commentUnits c)).andThen <|
    (s.collection c c.includeAttachments "attachments" (s.attachmentUnits c)).andThen <|
      s.collection c c.includeHistory "history" (s.historyUnits c)

/-- The turn of `fetch` for an issue, and whether it comes to the checkpoint. -/
def read : IssueStretch × Bool :=
  let body := s.bodyUnits c
  match body.raised with
  | none =>
      let stretch := body.andThen (s.collections c)
      (stretch, stretch.raised.isNone)
  | some .permissionDenied =>
      (⟨body.events ++ [.failed .permissionDenied .record (some (.text s.issueId))], none⟩,
        false)
  | some .connectorError =>
      (⟨body.events ++ [.failed .invalidResponse .record (some (.text s.issueId))], none⟩,
        false)
  | some _ => (body, false)

end IssueSite

inductive FetchEvent
  | object (e : UnitEvent)
  | checkpoint (position : IssuePosition)

structure WindowRun where
  events : List FetchEvent
  raised : Option Raised

def Resume.passesOver (r : Resume) (field : DateField) (s : IssueSite) : Bool :=
  s.issue ∈ r.seen && s.at? field = some r.minute

section Fetch
variable (c : JiraConnector) (window : Window) (resume : Option Resume)

/-- The call of `checkpoint_at`, unless the minute has too many issues. -/
def publishPoint (window : Window) (st : MinuteIds) (minute : ℕ) : List FetchEvent :=
  if st.finished.length ≤ maxMinuteIds then
    [.checkpoint
      { version := checkpointVersion, field := window.field, minute, seen := st.finished }]
  else []

/-- One issue of the search; an exception that leaves the fetch, or what is kept of the
minute. -/
def turn (st : MinuteIds) (s : IssueSite) : List FetchEvent × Except Raised MinuteIds :=
  if s.issue = "" then ([.object (.failed .invalidMetadata .record none)], .ok st)
  else if resume.any fun r => r.passesOver window.field s then ([], .ok st)
  else
    let (stretch, finished) := s.read c
    let events := stretch.events.map .object
    match stretch.raised with
    | some r => (events, .error r)
    | none =>
        match if finished then s.at? window.field else none with
        | none => (events, .ok st)
        | some minute =>
            let st' := st.finish minute s.issue
            (events ++ publishPoint window st' minute, .ok st')

/-- The issues of the search, and the exception the search itself ended in. -/
def fetchIssues (raised : Option Raised) (st : MinuteIds) : List IssueSite → WindowRun
  | [] => { events := [], raised }
  | s :: sites =>
      match turn c window resume st s with
      | (events, .error r) => { events, raised := some r }
      | (events, .ok st') =>
          let rest := fetchIssues raised st' sites
          { rest with events := events ++ rest.events }

/-- The run, and the watermark it proposes: the one discovery put on the task. -/
def fetchWindow (cursorAt : Option ℕ) (search : Listing IssueSite) : WindowRun × Option ℕ :=
  let run := fetchIssues c window resume search.raised {} search.rows
  (run, if run.raised.isSome then none else cursorAt)

end Fetch

namespace WindowRun
variable (run : WindowRun)

def objects : List UnitEvent :=
  run.events.filterMap fun
    | .object e => some e
    | .checkpoint _ => none

def positions : List IssuePosition :=
  run.events.filterMap fun
    | .object _ => none
    | .checkpoint p => some p

def units : List IssueUnit := run.objects.filterMap ObjectEvent.unit?

/-- Nothing that was listed is left unread, and no exception cut it short. -/
def Lossless : Prop := run.raised = none ∧ ∀ e ∈ run.objects, e.IsLoss = false

end WindowRun

namespace IssueSite

variable {c : JiraConnector} {s : IssueSite} {units : List IssueUnit}

def HasUnit (s : IssueSite) (units : List IssueUnit) (subResource : Option PyStr)
    (text : PyStr) : Prop :=
  ∃ u ∈ units, u.locator.resourceId = s.issueId ∧ u.locator.subResource = subResource ∧
    u.text = text

/-- A file of the issue with nothing of it left out. -/
structure AttachmentRead (c : JiraConnector) (s : IssueSite) (units : List IssueUnit)
    (a : IssueAttachment) (extracted : Extracted) : Prop where
  download : ∃ bytes, a.download = .data bytes ∧
    extracted = c.readers.extractText c.limits bytes (PyStr.strip a.filename)
  complete : extracted.outcome.IsIncomplete = false
  unit : extracted.outcome = .extracted → extracted.truncated = false ∧
    s.HasUnit units (some (pyStr "attachment:" ++ PyStr.strip a.filename)) extracted.text

/-- All there is of an issue in the units: its body, its comments, its files, and what its
fields ever held. -/
structure ReadInFull (c : JiraConnector) (s : IssueSite) (units : List IssueUnit) : Prop where
  body : ∃ fields texts, s.fields = some fields ∧ pieces c fields bodyFields = some texts ∧
    (joinLines texts ≠ [] → s.HasUnit units none (joinLines texts))
  comments : c.includeComments → s.comments.raised = none ∧ ∀ comment ∈ s.comments.rows,
    comment.id ≠ [] ∧ ∃ text, issueFieldText c.digits comment.fields (pyStr "body") = (true, text) ∧
      (text ≠ [] → s.HasUnit units (some (pyStr "comment:" ++ comment.id)) text)
  attachments : c.includeAttachments → ∀ a, some a ∈ s.attachments.getD [] →
    ∃ extracted, AttachmentRead c s units a extracted
  history : c.includeHistory → s.changelog.raised = none ∧
    (∀ entry ∈ s.changelog.rows, entry.Usable) ∧
    ∀ field, ∀ text ∈ heldTexts (changesOf field s.changelog.rows), text ≠ [] →
      ∃ u ∈ units, u.locator.resourceId = s.issueId ∧
        (∃ entry, u.display = .history entry field) ∧ u.text = text

theorem HasUnit.mono {units' : List IssueUnit} (hsub : units ⊆ units') {sub : Option PyStr}
    {text : PyStr} (h : s.HasUnit units sub text) : s.HasUnit units' sub text := by
  obtain ⟨u, hu, hunit⟩ := h
  exact ⟨u, hsub hu, hunit⟩

theorem ReadInFull.mono {units' : List IssueUnit} (hsub : units ⊆ units')
    (h : s.ReadInFull c units) : s.ReadInFull c units' where
  body := by
    obtain ⟨fields, texts, hfields, htexts, hunit⟩ := h.body
    exact ⟨fields, texts, hfields, htexts, fun hne => (hunit hne).mono hsub⟩
  comments hwanted := by
    obtain ⟨hraised, hall⟩ := h.comments hwanted
    refine ⟨hraised, fun comment hcomment => ?_⟩
    obtain ⟨hid, text, htext, hunit⟩ := hall comment hcomment
    exact ⟨hid, text, htext, fun hne => (hunit hne).mono hsub⟩
  attachments hwanted a ha := by
    obtain ⟨extracted, hread⟩ := h.attachments hwanted a ha
    exact ⟨extracted, hread.download, hread.complete,
      fun hout => ⟨(hread.unit hout).1, (hread.unit hout).2.mono hsub⟩⟩
  history hwanted := by
    obtain ⟨hraised, husable, hall⟩ := h.history hwanted
    refine ⟨hraised, husable, fun field text htext hne => ?_⟩
    obtain ⟨u, hu, hunit⟩ := hall field text htext hne
    exact ⟨u, hsub hu, hunit⟩

theorem hasUnit_of_lossless {sub : Option PyStr} {text : PyStr} {origin : IssueOrigin}
    {display : IssueDisplay} (h : (yielding (s.unit c sub text origin display) :
      IssueStretch).Lossless) :
    s.HasUnit (yielding (s.unit c sub text origin display) : IssueStretch).units sub text := by
  obtain ⟨u, hu⟩ := Option.isSome_iff_exists.1 (lossless_yielding.1 h)
  rw [hu]
  unfold unit at hu
  split_ifs at hu
  rw [← Option.some.inj hu]
  exact ⟨_, List.mem_singleton_self _, rfl, rfl, rfl⟩

theorem lossless_bodyUnits (h : (s.bodyUnits c).Lossless) :
    ∃ fields texts, s.fields = some fields ∧ pieces c fields bodyFields = some texts ∧
      (joinLines texts ≠ [] → s.HasUnit (s.bodyUnits c).units none (joinLines texts)) := by
  unfold bodyUnits at h ⊢
  cases hfields : s.fields with
  | none => simp [hfields, Stretch.Lossless] at h
  | some fields =>
      cases htexts : pieces c fields bodyFields with
      | none => simp [hfields, htexts, Stretch.Lossless, ObjectEvent.IsLoss] at h
      | some texts =>
          simp only [hfields, htexts] at h ⊢
          refine ⟨fields, texts, rfl, htexts, fun hne => ?_⟩
          rw [if_neg hne] at h ⊢
          rw [Stretch.units_andThen rfl]
          exact (hasUnit_of_lossless (Stretch.lossless_andThen.1 h).2).mono
            (List.subset_append_right _ _)

theorem lossless_commentRow {comment : IssueComment} (h : (s.commentRow c comment).Lossless) :
    comment.id ≠ [] ∧ ∃ text,
      issueFieldText c.digits comment.fields (pyStr "body") = (true, text) ∧
        (text ≠ [] → s.HasUnit (s.commentRow c comment).units
          (some (pyStr "comment:" ++ comment.id)) text) := by
  unfold commentRow at h ⊢
  by_cases hid : comment.id = []
  · rw [if_pos hid] at h
    simp [Stretch.Lossless, ObjectEvent.IsLoss] at h
  rw [if_neg hid] at h ⊢
  rcases hfield : issueFieldText c.digits comment.fields (pyStr "body") with ⟨present, text⟩
  cases present with
  | false => simp [hfield, Stretch.Lossless, ObjectEvent.IsLoss] at h
  | true =>
      simp only [hfield, Bool.not_true, Bool.false_eq_true, if_false] at h ⊢
      refine ⟨hid, text, rfl, fun hne => ?_⟩
      rw [if_neg hne] at h ⊢
      rw [Stretch.units_andThen rfl]
      exact (hasUnit_of_lossless (Stretch.lossless_andThen.1 h).2).mono
        (List.subset_append_right _ _)

theorem lossless_commentUnits (h : (s.commentUnits c).Lossless) :
    s.comments.raised = none ∧ ∀ comment ∈ s.comments.rows, comment.id ≠ [] ∧ ∃ text,
      issueFieldText c.digits comment.fields (pyStr "body") = (true, text) ∧
        (text ≠ [] → s.HasUnit (s.commentUnits c).units
          (some (pyStr "comment:" ++ comment.id)) text) := by
  obtain ⟨hrows, hraised⟩ := Stretch.lossless_andThen.1 h
  have hall := Stretch.lossless_concat.1 hrows
  refine ⟨hraised.1, fun comment hcomment => ?_⟩
  have hmem : s.commentRow c comment ∈ s.comments.rows.map (s.commentRow c) :=
    List.mem_map_of_mem hcomment
  obtain ⟨hid, text, htext, hunit⟩ := lossless_commentRow (hall _ hmem)
  refine ⟨hid, text, htext, fun hne => (hunit hne).mono fun u hu => ?_⟩
  rw [commentUnits, Stretch.units_andThen hrows.1]
  refine List.mem_append_left _ ((Stretch.mem_units_concat fun t ht => (hall t ht).1).2 ?_)
  exact ⟨_, hmem, hu⟩

theorem lossless_attachmentRow {a : IssueAttachment}
    (h : (s.attachmentRow c (some a)).Lossless) :
    ∃ extracted, AttachmentRead c s (s.attachmentRow c (some a)).units a extracted := by
  unfold attachmentRow at h ⊢
  dsimp only at h ⊢
  by_cases hmeta : PyStr.strip a.filename = [] ∨ PyStr.strip a.content = []
  · rw [if_pos hmeta] at h
    simp [Stretch.Lossless, ObjectEvent.IsLoss] at h
  by_cases hsize : a.size.any ((c.limits.maxInputBytes : ℤ) < ·)
  · rw [if_neg hmeta, if_pos hsize] at h
    simp [Stretch.Lossless, ObjectEvent.IsLoss] at h
  rw [if_neg hmeta, if_neg hsize] at h ⊢
  cases hdownload : a.download with
  | tooLarge => simp [hdownload, Stretch.Lossless, ObjectEvent.IsLoss] at h
  | raised r => cases r <;> simp [hdownload, Stretch.Lossless, ObjectEvent.IsLoss] at h
  | data bytes =>
      rw [hdownload] at h
      obtain ⟨hcomplete, htext⟩ := lossless_extraction_iff.1 h
      refine ⟨_, ⟨bytes, hdownload, rfl⟩, hcomplete, fun hout => ?_⟩
      obtain ⟨htruncated, hsome⟩ := htext hout
      obtain ⟨u, hu⟩ := Option.isSome_iff_exists.1 hsome
      have hmem : .yield u ∈ (extraction (IssueReference.text
          (if a.id ≠ [] then a.id else PyStr.strip a.filename)) (s.attachmentUnit c a)
          (c.readers.extractText c.limits bytes (PyStr.strip a.filename))).events :=
        unit_mem_extraction hout hu
      unfold attachmentUnit unit at hu
      split_ifs at hu
      refine ⟨htruncated, u, List.mem_filterMap.2 ⟨_, hmem, rfl⟩, ?_⟩
      rw [← Option.some.inj hu]
      exact ⟨rfl, rfl, rfl⟩

theorem lossless_attachmentUnits (h : (s.attachmentUnits c).Lossless) {a : IssueAttachment}
    (ha : some a ∈ s.attachments.getD []) :
    ∃ extracted, AttachmentRead c s (s.attachmentUnits c).units a extracted := by
  have hall := Stretch.lossless_concat.1 h
  have hmem : s.attachmentRow c (some a) ∈ (s.attachments.getD []).map (s.attachmentRow c) :=
    List.mem_map_of_mem ha
  obtain ⟨extracted, hread⟩ := lossless_attachmentRow (hall _ hmem)
  refine ⟨extracted, hread.download, hread.complete, fun hout => ?_⟩
  obtain ⟨htruncated, hunit⟩ := hread.unit hout
  refine ⟨htruncated, hunit.mono fun u hu => ?_⟩
  exact (Stretch.mem_units_concat fun t ht => (hall t ht).1).2 ⟨_, hmem, hu⟩

theorem lossless_collection {wanted : Bool} {name : String} {units : IssueStretch} :
    (s.collection c wanted name units).Lossless ↔ (wanted → units.Lossless) := by
  unfold collection
  split_ifs with hwanted
  · rw [Stretch.lossless_caught]
    · simp [hwanted]
    · intro r e he
      cases r <;> simp only [collectionGap, reduceCtorEq, Option.some.injEq] at he
      all_goals
        rw [← he]
        rfl
  · exact iff_of_true ⟨rfl, by simp⟩ fun h => absurd h hwanted

theorem collection_eq {name : String} {units : IssueStretch} (h : units.raised = none) :
    s.collection c true name units = units := Stretch.caught_of_not_raised h

def Owns (s : IssueSite) (stretch : IssueStretch) : Prop :=
  ∀ u ∈ stretch.units, u.locator.resourceId = s.issueId

theorem owns_andThen {stretch rest : IssueStretch} (h : s.Owns stretch) (h' : s.Owns rest) :
    s.Owns (stretch.andThen rest) := by
  cases hraised : stretch.raised with
  | some r => rwa [Stretch.andThen_of_raised (by simp [hraised])]
  | none =>
      intro u hu
      rw [Stretch.units_andThen hraised] at hu
      exact (List.mem_append.1 hu).elim (h u) (h' u)

theorem owns_yielding {sub : Option PyStr} {text : PyStr} {origin : IssueOrigin}
    {display : IssueDisplay} : s.Owns (yielding (s.unit c sub text origin display)) := by
  unfold unit
  split_ifs
  · intro u hu
    rw [List.mem_singleton.1 hu]
  · exact nofun

theorem owns_historyItem {entryId : PyStr} {seen : List PyStr} {item : ChangeItem} :
    s.Owns (s.historyItem c entryId seen item) := by
  unfold historyItem
  dsimp only
  split_ifs
  · exact nofun
  · exact owns_andThen nofun owns_yielding

theorem owns_of_units {t : IssueStretch} (h : t.units = []) : s.Owns t := by
  intro u hu
  rw [h] at hu
  cases hu

theorem owns_historyItems {entryId : PyStr} (items : List (Option ChangeItem))
    (seen : List PyStr) : s.Owns (s.historyItems c entryId seen items).1 := by
  induction items generalizing seen with
  | nil => exact owns_of_units rfl
  | cons item items ih =>
      cases item with
      | none => exact ih seen
      | some item =>
          rw [historyItems]
          split_ifs
          · exact ih seen
          · exact owns_andThen owns_historyItem (ih _)

theorem owns_historyFrom (rows : List HistoryEntry) (entries : ℕ) (seen : List PyStr) :
    s.Owns (s.historyFrom c entries seen rows) := by
  induction rows generalizing entries seen with
  | nil => exact owns_of_units rfl
  | cons entry rows ih =>
      rw [historyFrom]
      split_ifs
      · exact owns_of_units rfl
      · refine owns_andThen ?_ (ih _ _)
        unfold historyEntry
        split
        · exact owns_of_units rfl
        · split_ifs
          · exact owns_of_units rfl
          · exact owns_historyItems _ _

theorem lossless_historyUnits (h : (s.historyUnits c).Lossless) : s.changelog.raised = none ∧
      (∀ entry ∈ s.changelog.rows, entry.Usable) ∧
      ∀ field, ∀ text ∈ heldTexts (changesOf field s.changelog.rows), text ≠ [] →
        ∃ u ∈ (s.historyUnits c).units, u.locator.resourceId = s.issueId ∧
          (∃ entry, u.display = .history entry field) ∧ u.text = text := by
  obtain ⟨hlossless, htexts⟩ :=
    historyFrom_spec s.changelog.rows 0 (Nat.zero_le _) [] (.inr h.1)
  obtain ⟨hraised, hlength, husable⟩ := hlossless.1 h
  refine ⟨hraised, husable, fun field text htext hne => ?_⟩
  have htake : s.changelog.rows.take (maxHistoryEntries - 0) = s.changelog.rows :=
    List.take_of_length_le (by omega)
  have hmem : text ∈ historyTexts field (s.historyUnits c).units := by
    rw [historyUnits, htexts field, htake]
    exact List.mem_filter.2 ⟨by simpa [remainingTexts] using htext, decide_eq_true hne⟩
  obtain ⟨u, hu, hdisplay, rfl⟩ := mem_historyTexts.1 hmem
  exact ⟨u, hu, owns_historyFrom _ _ _ u hu, hdisplay, rfl⟩

theorem readInFull_of_lossless (h : (s.read c).1.Lossless) :
    s.ReadInFull c (s.read c).1.units := by
  have hbody : (s.bodyUnits c).raised = none ∧
      s.read c = ((s.bodyUnits c).andThen (s.collections c),
        ((s.bodyUnits c).andThen (s.collections c)).raised.isNone) := by
    unfold read at h ⊢
    cases hraised : (s.bodyUnits c).raised with
    | none =>
        refine ⟨rfl, ?_⟩
        simp only [hraised]
    | some r =>
        simp only [hraised] at h
        cases r with
        | permissionDenied | connectorError =>
            exact absurd (h.2 _ (List.mem_append_right _ (List.mem_singleton_self _)))
              Bool.noConfusion
        | credentialError | rateLimited | unexpected => cases hraised.symm.trans h.1
  obtain ⟨hraised, hread⟩ := hbody
  rw [hread] at h ⊢
  dsimp only at h ⊢
  obtain ⟨hbody, hcollections⟩ := Stretch.lossless_andThen.1 h
  obtain ⟨hcomments, hrest⟩ := Stretch.lossless_andThen.1 hcollections
  obtain ⟨hattachments, hhistory⟩ := Stretch.lossless_andThen.1 hrest
  have hunits : ((s.bodyUnits c).andThen (s.collections c)).units =
      (s.bodyUnits c).units ++ ((s.collection c c.includeComments "comments"
        (s.commentUnits c)).units ++ ((s.collection c c.includeAttachments "attachments"
          (s.attachmentUnits c)).units ++ (s.collection c c.includeHistory "history"
            (s.historyUnits c)).units)) := by
    rw [Stretch.units_andThen hraised, collections, Stretch.units_andThen hcomments.1,
      Stretch.units_andThen hattachments.1]
  rw [hunits]
  refine ⟨?_, fun hwanted => ?_, fun hwanted a ha => ?_, fun hwanted => ?_⟩
  · obtain ⟨fields, texts, hfields, htexts, hunit⟩ := lossless_bodyUnits hbody
    exact ⟨fields, texts, hfields, htexts,
      fun hne => (hunit hne).mono (List.subset_append_left _ _)⟩
  · have hl := lossless_collection.1 hcomments hwanted
    obtain ⟨hlisted, hall⟩ := lossless_commentUnits hl
    refine ⟨hlisted, fun comment hcomment => ?_⟩
    obtain ⟨hid, text, htext, hunit⟩ := hall comment hcomment
    refine ⟨hid, text, htext, fun hne => (hunit hne).mono ?_⟩
    rw [hwanted, collection_eq hl.1]
    exact fun u hu => List.mem_append_right _ (List.mem_append_left _ hu)
  · have hl := lossless_collection.1 hattachments hwanted
    obtain ⟨extracted, hread⟩ := lossless_attachmentUnits hl ha
    refine ⟨extracted, hread.download, hread.complete,
      fun hout => ⟨(hread.unit hout).1, (hread.unit hout).2.mono ?_⟩⟩
    rw [hwanted, collection_eq hl.1]
    exact fun u hu => List.mem_append_right _
      (List.mem_append_right _ (List.mem_append_left _ hu))
  · have hl := lossless_collection.1 hhistory hwanted
    obtain ⟨hlisted, husable, hall⟩ := lossless_historyUnits hl
    refine ⟨hlisted, husable, fun field text htext hne => ?_⟩
    obtain ⟨u, hu, hunit⟩ := hall field text htext hne
    refine ⟨u, ?_, hunit⟩
    rw [hwanted, collection_eq hl.1]
    exact List.mem_append_right _ (List.mem_append_right _ (List.mem_append_right _ hu))

end IssueSite

section Turns
variable {c : JiraConnector} {window : Window} {resume : Option Resume} {st st' : MinuteIds}
  {s : IssueSite} {events : List FetchEvent} {out : Except Raised MinuteIds}

def objectEvents (stretch : IssueStretch) : List FetchEvent := stretch.events.map .object

theorem turn_cases (h : turn c window resume st s = (events, out)) :
    (s.issue = "" ∧ events = [.object (.failed .invalidMetadata .record none)] ∧
        out = .ok st) ∨
      (s.issue ≠ "" ∧ (∃ r ∈ resume, r.passesOver window.field s) ∧ events = [] ∧ out = .ok st) ∨
      (s.issue ≠ "" ∧ (¬ ∃ r ∈ resume, r.passesOver window.field s) ∧
        ((∃ r, (s.read c).1.raised = some r ∧ events = objectEvents (s.read c).1 ∧
            out = .error r) ∨
          ((s.read c).1.raised = none ∧ ((s.read c).2 = true → s.at? window.field = none) ∧
            events = objectEvents (s.read c).1 ∧ out = .ok st) ∨
          (s.read c).1.raised = none ∧ (s.read c).2 = true ∧ ∃ minute,
            s.at? window.field = some minute ∧ out = .ok (st.finish minute s.issue) ∧
            events = objectEvents (s.read c).1 ++
              publishPoint window (st.finish minute s.issue) minute)) := by
  unfold turn at h
  by_cases hid : s.issue = ""
  · rw [if_pos hid, Prod.mk.injEq] at h
    exact .inl ⟨hid, h.1.symm, h.2.symm⟩
  rw [if_neg hid] at h
  right
  by_cases hover : resume.any fun r => r.passesOver window.field s
  · rw [if_pos hover, Prod.mk.injEq] at h
    exact .inl ⟨hid, (Option.any_eq_true _ _).1 hover, h.1.symm, h.2.symm⟩
  have hnot : ¬ ∃ r ∈ resume, r.passesOver window.field s := fun hr =>
    hover ((Option.any_eq_true _ _).2 hr)
  rw [if_neg hover] at h
  refine .inr ⟨hid, hnot, ?_⟩
  dsimp only at h
  cases hraised : (s.read c).1.raised with
  | some r =>
      rw [hraised, Prod.mk.injEq] at h
      exact .inl ⟨r, rfl, h.1.symm, h.2.symm⟩
  | none =>
      right
      rw [hraised] at h
      dsimp only at h
      cases hat : if (s.read c).2 then s.at? window.field else none with
      | none =>
          rw [hat, Prod.mk.injEq] at h
          refine .inl ⟨rfl, fun hfinished => ?_, h.1.symm, h.2.symm⟩
          rwa [if_pos hfinished] at hat
      | some minute =>
          rw [hat, Prod.mk.injEq] at h
          split_ifs at hat with hfinished
          exact .inr ⟨rfl, hfinished, minute, hat, h.2.symm, h.1.symm⟩

theorem mem_publishPoint {minute : ℕ} {e : FetchEvent} (h : e ∈ publishPoint window st minute) :
    e = .checkpoint
      { version := checkpointVersion, field := window.field, minute, seen := st.finished } := by
  unfold publishPoint at h
  split_ifs at h
  · exact List.mem_singleton.1 h
  · cases h

/-- All that was reported of an issue is among these events, and its reading came to the
checkpoint. -/
def Reported (c : JiraConnector) (past : List FetchEvent) (s : IssueSite) : Prop :=
  (s.read c).1.raised = none ∧ (s.read c).2 = true ∧ objectEvents (s.read c).1 ⊆ past

theorem Reported.mono {past past' : List FetchEvent} (hsub : past ⊆ past')
    (h : Reported c past s) : Reported c past' s := ⟨h.1, h.2.1, fun _ he => hsub (h.2.2 he)⟩

/-- Each id that is kept of a minute is an issue of it that was reported. -/
def MinuteIds.Kept (c : JiraConnector) (field : DateField) (sites : List IssueSite)
    (past : List FetchEvent) (st : MinuteIds) : Prop :=
  ∀ id ∈ st.finished, ∃ s ∈ sites, s.issue = id ∧ s.at? field = st.minute ∧ Reported c past s

theorem MinuteIds.Kept.mono {field : DateField} {sites : List IssueSite}
    {past past' : List FetchEvent} (hsub : past ⊆ past') (h : st.Kept c field sites past) :
    st.Kept c field sites past' := by
  intro id hid
  obtain ⟨s, hs, hissue, hat, hreported⟩ := h id hid
  exact ⟨s, hs, hissue, hat, hreported.mono hsub⟩

theorem MinuteIds.Kept.finish {field : DateField} {sites : List IssueSite}
    {past : List FetchEvent} (h : st.Kept c field sites past) (hs : s ∈ sites) {minute : ℕ}
    (hat : s.at? field = some minute) (hreported : Reported c past s) :
    (st.finish minute s.issue).Kept c field sites past := by
  intro id hid
  rw [minute_finish]
  unfold MinuteIds.finish at hid
  split_ifs at hid with hsame
  · rcases List.mem_append.1 hid with hid | hid
    · obtain ⟨s', hs', hissue, hat', hreported'⟩ := h id hid
      exact ⟨s', hs', hissue, hat'.trans hsame, hreported'⟩
    · exact ⟨s, hs, (List.mem_singleton.1 hid).symm, hat, hreported⟩
  · exact ⟨s, hs, (List.mem_singleton.1 hid).symm, hat, hreported⟩

/-- What is kept stays kept over a turn, and a point is published behind the issue that it
is about. -/
theorem kept_of_turn {sites : List IssueSite} {past : List FetchEvent}
    (hkept : st.Kept c window.field sites past) (hs : s ∈ sites)
    (h : turn c window resume st s = (events, out)) :
    (∀ st', out = .ok st' → st'.Kept c window.field sites (past ++ events)) ∧
      ∀ before p after, events = before ++ .checkpoint p :: after →
        p.field = window.field ∧ ∃ st' : MinuteIds, st'.minute = some p.minute ∧
          st'.finished = p.seen ∧ st'.Kept c window.field sites (past ++ before) := by
  have hnone : ∀ stretch : IssueStretch, ∀ before p after,
      objectEvents stretch ≠ before ++ .checkpoint p :: after := by
    intro stretch before p after heq
    have hmem : .checkpoint p ∈ objectEvents stretch := heq ▸ by simp
    obtain ⟨e, -, he⟩ := List.mem_map.1 hmem
    cases he
  rcases turn_cases h with ⟨-, rfl, rfl⟩ | ⟨-, -, rfl, rfl⟩ |
    ⟨-, -, ⟨r, -, rfl, rfl⟩ | ⟨-, -, rfl, rfl⟩ |
      ⟨hraised, hfinished, minute, hat, rfl, rfl⟩⟩
  · refine ⟨fun st' hst => ?_, fun before p after heq => ?_⟩
    · cases hst
      exact hkept.mono (List.subset_append_left _ _)
    · cases before <;> simp at heq
  · refine ⟨fun st' hst => ?_, fun before p after heq => ?_⟩
    · cases hst
      exact hkept.mono (List.subset_append_left _ _)
    · cases before <;> simp at heq
  · refine ⟨fun st' hst => ?_, fun before p after heq => absurd heq (hnone _ _ _ _)⟩
    cases hst
  · refine ⟨fun st' hst => ?_, fun before p after heq => absurd heq (hnone _ _ _ _)⟩
    cases hst
    exact hkept.mono (List.subset_append_left _ _)
  · have hreported : Reported c (past ++ objectEvents (s.read c).1) s :=
      ⟨hraised, hfinished, List.subset_append_right _ _⟩
    have hdone : (st.finish minute s.issue).Kept c window.field sites
        (past ++ objectEvents (s.read c).1) :=
      (hkept.mono (List.subset_append_left _ _)).finish hs hat hreported
    refine ⟨fun st' hst => ?_, fun before p after heq => ?_⟩
    · cases hst
      rw [← List.append_assoc]
      exact hdone.mono (List.subset_append_left _ _)
    · rcases Bookmark.append_split heq with ⟨tail, rfl, hrest⟩ | ⟨tail, htail⟩
      · have hp := mem_publishPoint (hrest ▸ by simp : .checkpoint p ∈ publishPoint window
          (st.finish minute s.issue) minute)
        cases hp
        refine ⟨rfl, _, minute_finish st minute s.issue, rfl, ?_⟩
        rw [← List.append_assoc]
        exact hdone.mono (List.subset_append_left _ _)
      · exact absurd htail (hnone _ _ _ _)

end Turns

section Window
variable {c : JiraConnector} {window : Window} {resume : Option Resume} {st : MinuteIds}
  {sites all : List IssueSite} {raised : Option Raised} {past : List FetchEvent}

/-- Ahead of a published point, all there was to report of each issue it names was
reported. -/
theorem reported_of_checkpoint (hkept : st.Kept c window.field all past)
    (hall : ∀ s ∈ sites, s ∈ all) {before after : List FetchEvent} {p : IssuePosition}
    (h : (fetchIssues c window resume raised st sites).events = before ++ .checkpoint p :: after) :
    p.field = window.field ∧ ∀ id ∈ p.seen, ∃ s ∈ all, s.issue = id ∧
      s.at? window.field = some p.minute ∧ Reported c (past ++ before) s := by
  induction sites generalizing st past before with
  | nil => cases before <;> simp [fetchIssues] at h
  | cons s sites ih =>
      have hs := hall s List.mem_cons_self
      have hrest : ∀ s ∈ sites, s ∈ all := fun s hs => hall s (List.mem_cons_of_mem _ hs)
      have hnamed : ∀ st' : MinuteIds, st'.minute = some p.minute → st'.finished = p.seen →
          ∀ past', st'.Kept c window.field all past' → ∀ id ∈ p.seen, ∃ s ∈ all, s.issue = id ∧
            s.at? window.field = some p.minute ∧ Reported c past' s := by
        intro st' hminute hfinished past' hkept' id hid
        rw [← hfinished] at hid
        rw [← hminute]
        exact hkept' id hid
      rcases hturn : turn c window resume st s with ⟨events, r | st'⟩
      · simp only [fetchIssues, hturn] at h
        obtain ⟨hfield, st', hminute, hfinished, hk⟩ := (kept_of_turn hkept hs hturn).2 _ _ _ h
        exact ⟨hfield, hnamed st' hminute hfinished _ hk⟩
      · simp only [fetchIssues, hturn] at h
        rcases Bookmark.append_split h with ⟨tail, rfl, htail⟩ | ⟨tail, rfl⟩
        · have hk := (kept_of_turn hkept hs hturn).1 st' rfl
          obtain ⟨hfield, hseen⟩ := ih hk hrest htail
          refine ⟨hfield, fun id hid => ?_⟩
          rw [← List.append_assoc]
          exact hseen id hid
        · obtain ⟨hfield, st', hminute, hfinished, hk⟩ :=
            (kept_of_turn hkept hs hturn).2 _ _ _ rfl
          exact ⟨hfield, hnamed st' hminute hfinished _ hk⟩

theorem objects_append (events events' : List FetchEvent) (r : Option Raised) :
    WindowRun.objects ⟨events ++ events', r⟩ =
      WindowRun.objects ⟨events, r⟩ ++ WindowRun.objects ⟨events', r⟩ := List.filterMap_append

theorem objects_objectEvents (stretch : IssueStretch) (r : Option Raised) :
    WindowRun.objects ⟨objectEvents stretch, r⟩ = stretch.events := by
  simp [WindowRun.objects, objectEvents, List.filterMap_map]

theorem fetchIssues_lossless (h : (fetchIssues c window resume raised st sites).Lossless) :
    ∀ s ∈ sites, s.issue ≠ "" ∧ ((∃ r ∈ resume, r.passesOver window.field s) ∨
      s.ReadInFull c (fetchIssues c window resume raised st sites).units) := by
  induction sites generalizing st with
  | nil => simp
  | cons s sites ih =>
      rcases hturn : turn c window resume st s with ⟨events, r | st'⟩
      · cases (show some r = none by simpa [fetchIssues, hturn] using h.1)
      have hrun : fetchIssues c window resume raised st (s :: sites) =
          { fetchIssues c window resume raised st' sites with
            events := events ++ (fetchIssues c window resume raised st' sites).events } := by
        simp only [fetchIssues, hturn]
      have hobjects : (fetchIssues c window resume raised st (s :: sites)).objects =
          WindowRun.objects ⟨events, none⟩ ++
            (fetchIssues c window resume raised st' sites).objects := by
        rw [hrun]
        exact List.filterMap_append
      have hloss := h.2
      rw [hobjects] at hloss
      have hraised : (fetchIssues c window resume raised st' sites).raised = none := by
        have := h.1
        rwa [hrun] at this
      have hrest := ih ⟨hraised, fun e he => hloss e (List.mem_append_right _ he)⟩
      have hunits : ∀ e ∈ WindowRun.objects ⟨events, none⟩ ++
          (fetchIssues c window resume raised st' sites).objects, ∀ u ∈ e.unit?,
            u ∈ (fetchIssues c window resume raised st (s :: sites)).units := by
        intro e he u hu
        rw [WindowRun.units, hobjects]
        exact List.mem_filterMap.2 ⟨e, he, hu⟩
      rintro s' hs'
      rcases List.mem_cons.1 hs' with rfl | hs'
      · have hread : ∀ published, events = objectEvents (s'.read c).1 ++ published →
            (s'.read c).1.raised = none →
            s'.ReadInFull c (fetchIssues c window resume raised st (s' :: sites)).units := by
          rintro published rfl hnone
          have hmem : ∀ e ∈ (s'.read c).1.events,
              e ∈ WindowRun.objects ⟨objectEvents (s'.read c).1 ++ published, none⟩ := by
            intro e he
            rw [objects_append, objects_objectEvents]
            exact List.mem_append_left _ he
          refine (IssueSite.readInFull_of_lossless ⟨hnone, fun e he =>
            hloss e (List.mem_append_left _ (hmem e he))⟩).mono fun u hu => ?_
          obtain ⟨e, he, hu⟩ := List.mem_filterMap.1 hu
          exact hunits e (List.mem_append_left _ (hmem e he)) u hu
        rcases turn_cases hturn with ⟨-, rfl, -⟩ | ⟨hid, hover, -, -⟩ |
          ⟨hid, -, ⟨r, -, -, hout⟩ | ⟨hnone, -, hevents, -⟩ |
            ⟨hnone, -, minute, -, -, hevents⟩⟩
        · exact absurd (hloss _ (List.mem_append_left _ (List.mem_singleton_self _))) nofun
        · exact ⟨hid, .inl hover⟩
        · cases hout
        · exact ⟨hid, .inr (hread [] (by rw [hevents, List.append_nil]) hnone)⟩
        · exact ⟨hid, .inr (hread _ hevents hnone)⟩
      · obtain ⟨hid, hdone⟩ := hrest s' hs'
        refine ⟨hid, hdone.imp_right fun hfull => hfull.mono fun u hu => ?_⟩
        obtain ⟨e, he, hu⟩ := List.mem_filterMap.1 hu
        exact hunits e (List.mem_append_right _ he) u hu

/-- The issue as the resume protocol sees it in the answer. -/
def IssueSite.answered (c : JiraConnector) (field : DateField) (s : IssueSite) : Answered where
  issue := s.issue
  hasId := s.issue ≠ ""
  dated := (s.at? field).isSome
  reading :=
    if (s.read c).1.raised.isSome then .raised else if (s.read c).2 then .units else .refused

def IssueEvent.position? : IssueEvent → Option IssuePosition
  | .checkpoint p => some p
  | _ => none

/-- The run tells what the events of the protocol say. -/
structure WindowRun.Follows (run : WindowRun) (c : JiraConnector) (resume : Option Resume)
    (field : DateField) (sites : List IssueSite) (told : List IssueEvent) : Prop where
  positions : run.positions = told.filterMap IssueEvent.position?
  enumerated : ∀ i, .enumerated i ∈ told → ∃ s ∈ sites, s.issue = i ∧ Reported c run.events s
  failed : ∀ i, .failed i ∈ told → ∃ e ∈ run.objects, e.IsLoss
  passedOver : ∀ i, .passedOver i ∈ told →
    ∃ s ∈ sites, s.issue = i ∧ ∃ r ∈ resume, r.passesOver field s

theorem answered_id (s : IssueSite) (field : DateField) : (s.answered c field).id = s.issue := by
  unfold Answered.id IssueSite.answered
  by_cases h : s.issue = "" <;> simp [h]

theorem answered_fieldAt {minute : String → ℕ} {field : DateField} {s : IssueSite}
    (h : ∀ m ∈ s.at? field, minute s.issue = m) :
    (s.answered c field).fieldAt minute = s.at? field := by
  unfold Answered.fieldAt IssueSite.answered
  cases hat : s.at? field with
  | none => simp
  | some m => simp [h m hat]

theorem read_refused (s : IssueSite) (hraised : (s.read c).1.raised = none)
    (h : (s.read c).2 = false) : ∃ e ∈ (s.read c).1.events, e.IsLoss := by
  unfold IssueSite.read at hraised h ⊢
  dsimp only at hraised h ⊢
  cases hbody : (s.bodyUnits c).raised with
  | none => simp_all
  | some r =>
      simp only [hbody] at hraised h ⊢
      cases r with
      | permissionDenied | connectorError =>
          exact ⟨_, List.mem_append_right _ (List.mem_singleton_self _), rfl⟩
      | credentialError | rateLimited | unexpected => cases hbody.symm.trans hraised

theorem positions_objectEvents (stretch : IssueStretch) (events : List FetchEvent)
    (r : Option Raised) :
    WindowRun.positions ⟨objectEvents stretch ++ events, r⟩ = WindowRun.positions ⟨events, r⟩ := by
  unfold WindowRun.positions objectEvents
  rw [List.filterMap_append, List.filterMap_map]
  simp

theorem positions_publishPoint (minute : ℕ) (r : Option Raised) :
    WindowRun.positions ⟨publishPoint window st minute, r⟩ =
      (publish window st minute).filterMap IssueEvent.position? := by
  unfold publishPoint publish
  split_ifs <;> rfl

theorem covers_answered {minute : String → ℕ} {s : IssueSite}
    (hminute : ∀ m ∈ s.at? window.field, minute s.issue = m) :
    (resume.any fun r => r.covers minute (s.answered c window.field)) =
      resume.any fun r => r.passesOver window.field s := by
  cases resume with
  | none => rfl
  | some r =>
      simp only [Option.any_some, Resume.covers, Resume.passesOver, answered_id,
        answered_fieldAt hminute]

theorem turn_follows {minute : String → ℕ} {s : IssueSite} {events : List FetchEvent}
    {out : Except Raised MinuteIds} (h : turn c window resume st s = (events, out))
    (hminute : ∀ m ∈ s.at? window.field, minute s.issue = m) :
    ∃ told, readIssue minute window resume st (s.answered c window.field) = (told, out.toOption) ∧
      WindowRun.Follows ⟨events, none⟩ c resume window.field [s] told := by
  have hover : (resume.any fun r => r.covers minute (s.answered c window.field)) =
      resume.any fun r => r.passesOver window.field s := covers_answered hminute
  unfold readIssue
  rw [answered_id, hover]
  rcases turn_cases h with ⟨hid, rfl, rfl⟩ | ⟨hid, hpass, rfl, rfl⟩ | ⟨hid, hpass, hcases⟩
  · rw [if_pos hid]
    refine ⟨_, rfl, rfl, ?_, ?_, ?_⟩
    · simp
    · exact fun i _ => ⟨_, List.mem_singleton_self _, rfl⟩
    · simp
  · rw [if_neg hid, if_pos ((Option.any_eq_true _ _).2 hpass)]
    refine ⟨_, rfl, rfl, by simp, by simp, fun i hi => ⟨s, List.mem_singleton_self _, ?_, hpass⟩⟩
    exact (IssueEvent.passedOver.inj (List.mem_singleton.1 hi)).symm
  · rw [if_neg hid, if_neg fun hr => hpass ((Option.any_eq_true _ _).1 hr)]
    rcases hcases with ⟨r, hraised, rfl, rfl⟩ | ⟨hraised, hdated, rfl, rfl⟩ |
      ⟨hraised, hfinished, m, hat, rfl, rfl⟩
    · have hreading : (s.answered c window.field).reading = .raised := by
        simp [IssueSite.answered, hraised]
      rw [hreading]
      have hpos := positions_objectEvents (s.read c).1 [] none
      rw [List.append_nil] at hpos
      exact ⟨[], rfl, hpos, by simp, by simp, by simp⟩
    · have hpos := positions_objectEvents (s.read c).1 [] none
      rw [List.append_nil] at hpos
      by_cases hfinished : (s.read c).2 = true
      · have hreading : (s.answered c window.field).reading = .units := by
          simp [IssueSite.answered, hraised, hfinished]
        rw [hreading, answered_fieldAt hminute, hdated hfinished]
        refine ⟨_, rfl, hpos, fun i hi => ?_, by simp, by simp⟩
        have hi : i = s.issue := IssueEvent.enumerated.inj (List.mem_singleton.1 hi)
        exact ⟨s, List.mem_singleton_self _, hi.symm, hraised, hfinished, List.Subset.refl _⟩
      · have hreading : (s.answered c window.field).reading = .refused := by
          simp [IssueSite.answered, hraised, hfinished]
        rw [hreading]
        refine ⟨_, rfl, hpos, by simp, fun i _ => ?_, by simp⟩
        rw [objects_objectEvents]
        exact read_refused s hraised (by simpa using hfinished)
    · have hreading : (s.answered c window.field).reading = .units := by
        simp [IssueSite.answered, hraised, hfinished]
      rw [hreading, answered_fieldAt hminute, hat]
      refine ⟨_, rfl, ?_, fun i hi => ?_, ?_, ?_⟩
      · rw [positions_objectEvents, positions_publishPoint]
        rfl
      · have hi : i = s.issue := by
          rcases List.mem_cons.1 hi with hi | hi
          · exact IssueEvent.enumerated.inj hi
          · unfold publish at hi
            split_ifs at hi <;> simp at hi
        exact ⟨s, List.mem_singleton_self _, hi.symm, hraised, hfinished,
          List.subset_append_left _ _⟩
      · intro i hi
        unfold publish at hi
        split_ifs at hi <;> simp at hi
      · intro i hi
        unfold publish at hi
        split_ifs at hi <;> simp at hi

theorem WindowRun.Follows.mono {run run' : WindowRun} {field : DateField}
    {sites sites' : List IssueSite} {told : List IssueEvent}
    (h : run.Follows c resume field sites told) (hpositions : run'.positions = run.positions)
    (hevents : run.events ⊆ run'.events) (hsites : sites ⊆ sites') :
    run'.Follows c resume field sites' told where
  positions := hpositions.trans h.positions
  enumerated i hi := by
    obtain ⟨s, hs, hissue, hreported⟩ := h.enumerated i hi
    exact ⟨s, hsites hs, hissue, hreported.mono hevents⟩
  failed i hi := by
    obtain ⟨e, he, hloss⟩ := h.failed i hi
    obtain ⟨e', he', heq⟩ := List.mem_filterMap.1 he
    exact ⟨e, List.mem_filterMap.2 ⟨e', hevents he', heq⟩, hloss⟩
  passedOver i hi := by
    obtain ⟨s, hs, hissue, hover⟩ := h.passedOver i hi
    exact ⟨s, hsites hs, hissue, hover⟩

/-- The run of the connector and the run of the protocol over the same answers. -/
theorem fetchIssues_follows {minute : String → ℕ}
    (hminute : ∀ s ∈ sites, ∀ m ∈ s.at? window.field, minute s.issue = m) :
    let told := fetch minute window resume st (sites.map (IssueSite.answered c window.field))
    (fetchIssues c window resume raised st sites).Follows c resume window.field sites told.1 ∧
      (raised = none → (told.2 = true ↔
        (fetchIssues c window resume raised st sites).raised = none)) := by
  induction sites generalizing st with
  | nil => exact ⟨⟨rfl, nofun, nofun, nofun⟩, fun h => iff_of_true rfl h⟩
  | cons s sites ih =>
      rcases hturn : turn c window resume st s with ⟨events, r | st'⟩
      · obtain ⟨told, htold, hfollows⟩ := turn_follows hturn (hminute s List.mem_cons_self)
        have hrun : fetchIssues c window resume raised st (s :: sites) =
            { events, raised := some r } := by simp only [fetchIssues, hturn]
        rw [List.map_cons, fetch, htold, hrun]
        refine ⟨hfollows.mono rfl (List.Subset.refl _) (by simp), fun _ => ?_⟩
        simp [Except.toOption]
      · obtain ⟨told, htold, hfollows⟩ := turn_follows hturn (hminute s List.mem_cons_self)
        obtain ⟨hrest, hend⟩ := @ih st' fun s hs => hminute s (List.mem_cons_of_mem _ hs)
        have hrun : fetchIssues c window resume raised st (s :: sites) =
            { fetchIssues c window resume raised st' sites with
              events := events ++ (fetchIssues c window resume raised st' sites).events } := by
          simp only [fetchIssues, hturn]
        rw [List.map_cons, fetch, htold, hrun]
        simp only [Except.toOption]
        refine ⟨⟨?_, fun i hi => ?_, fun i hi => ?_, fun i hi => ?_⟩, hend⟩
        · rw [List.filterMap_append, ← hfollows.positions, ← hrest.positions]
          exact List.filterMap_append
        · rcases List.mem_append.1 hi with hi | hi
          · obtain ⟨s', hs', hissue, hreported⟩ := hfollows.enumerated i hi
            rw [List.mem_singleton.1 hs'] at hissue hreported
            exact ⟨s, List.mem_cons_self, hissue,
              hreported.mono (List.subset_append_left _ _)⟩
          · obtain ⟨s', hs', hissue, hreported⟩ := hrest.enumerated i hi
            exact ⟨s', List.mem_cons_of_mem _ hs', hissue,
              hreported.mono (List.subset_append_right _ _)⟩
        · rcases List.mem_append.1 hi with hi | hi
          · obtain ⟨e, he, hloss⟩ := hfollows.failed i hi
            exact ⟨e, by rw [objects_append]; exact List.mem_append_left _ he, hloss⟩
          · obtain ⟨e, he, hloss⟩ := hrest.failed i hi
            exact ⟨e, by rw [objects_append]; exact List.mem_append_right _ he, hloss⟩
        · rcases List.mem_append.1 hi with hi | hi
          · obtain ⟨s', hs', hissue, hover⟩ := hfollows.passedOver i hi
            rw [List.mem_singleton.1 hs'] at hissue hover
            exact ⟨s, List.mem_cons_self, hissue, hover⟩
          · obtain ⟨s', hs', hissue, hover⟩ := hrest.passedOver i hi
            exact ⟨s', List.mem_cons_of_mem _ hs', hissue, hover⟩

/-- A point that a fetch publishes names only issues of its minute of which all was reported
before. A fetch that reports no loss and that no exception ends has read in full every
issue the search answered, those aside that the point it resumed from passes over. And
the fetch is the one of the resume protocol, seen from its answers. -/
theorem window_read (c : JiraConnector) (window : Window) (resume : Option Resume)
    (cursorAt : Option ℕ) (search : Listing IssueSite) :
    let run := (fetchWindow c window resume cursorAt search).1
    (∀ before p after, run.events = before ++ .checkpoint p :: after →
        p.field = window.field ∧ ∀ id ∈ p.seen, ∃ s ∈ search.rows, s.issue = id ∧
          s.at? window.field = some p.minute ∧ Reported c before s) ∧
      (run.Lossless → ∀ s ∈ search.rows, s.issue ≠ "" ∧
        ((∃ r ∈ resume, r.passesOver window.field s) ∨ s.ReadInFull c run.units)) ∧
      ∀ minute : String → ℕ,
        (∀ s ∈ search.rows, ∀ m ∈ s.at? window.field, minute s.issue = m) →
        let told := fetch minute window resume {} (search.rows.map
          (IssueSite.answered c window.field))
        run.Follows c resume window.field search.rows told.1 ∧
          (search.raised = none → (told.2 = true ↔ run.raised = none)) := by
  intro run
  refine ⟨fun before p after h => ?_, fetchIssues_lossless, fun minute => fetchIssues_follows⟩
  have hkept : ({} : MinuteIds).Kept c window.field search.rows [] := nofun
  exact reported_of_checkpoint hkept (fun _ hs => hs) h

end Window
end IcebergSST.Jira
