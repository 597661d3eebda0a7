import IcebergSST.ConfluenceComments
import IcebergSST.StorageText

/-!
# Reading the pages of a space

A page has a body, comments and attachments. What a fetch reports of it is set against the
attempt of the space's watermark: an attempt that meets no gap has all there is of every
page it counts as read.
-/

namespace IcebergSST.Confluence

open Content

namespace PageSite

variable {c : ConfluenceConnector} {s : PageSite} {endpoint : CommentEndpoint}
  {context : PageContext} {row : Comment}

section
variable (c s)

def contextOf (payload : Payload) : PageContext :=
  let path := (payload.links.join.filter (· ≠ [])).getD (pyStr "/pages/" ++ s.pageId)
  { space := c.spaceKey
    spaceName := c.spaceName
    title := payload.title.join
    path
    url := c.resolve path }

def body : Except Raised (Payload × PyStr) :=
  match supportedBodyText c.tables s.listed.body with
  | .text t => .ok (s.listed, t)
  | .raised => .error .unexpected
  | .unsupported =>
      match s.detail with
      | .error r => .error r
      | .ok detail =>
          match supportedBodyText c.tables detail.body with
          | .text t => .ok (s.listed.merge detail, t)
          | .raised => .error .unexpected
          | .unsupported => .error .connectorError

def pageUnits (context : PageContext) (text : PyStr) : PageStretch :=
  if text = [] then ⟨[.skipped .emptyContent .page (some (.text s.pageId))], none⟩
  else (⟨[.scanned .page (.text s.pageId)], none⟩ : PageStretch).andThen
    (yielding (s.unit context none text .body .page))

end

def attachmentReference (a : Attachment) : Option Reference :=
  if a.id ≠ [] then some (.text a.id) else if a.title ≠ [] then some (.text a.title) else none

def attachmentUnit (s : PageSite) (context : PageContext) (a : Attachment) (e : Extracted) :
    Option PageUnit :=
  s.unit context (some (pyStr "attachment:" ++ a.title)) e.text .attachment
    (.attachment a.title a.mediaType e.truncated)

variable (c s context) in
/-- One row of the listing. The first check looks at the size the site declares, the second
at the bytes that arrive. -/
def attachmentRow (a : Attachment) : PageStretch :=
  if a.title = [] ∨ !a.hasLink then
    ⟨[.failed .invalidMetadata .attachment (attachmentReference a)], none⟩
  else if a.fileSize.any ((c.limits.maxInputBytes : ℤ) < ·) then
    ⟨[.failed .sizeLimit .attachment (attachmentReference a)], none⟩
  else
    match a.download with
    | .tooLarge => ⟨[.failed .sizeLimit .attachment (attachmentReference a)], none⟩
    | .raised .credentialError => ⟨[], some .credentialError⟩
    | .raised .rateLimited => ⟨[], some .rateLimited⟩
    | .raised .unexpected => ⟨[], some .unexpected⟩
    | .raised _ => ⟨[.failed .connectorError .attachment (attachmentReference a)], none⟩
    | .data bytes =>
        extraction (.text (if a.id ≠ [] then a.id else a.title)) (s.attachmentUnit context a)
          (c.readers.extractText c.limits bytes a.title)

variable (c s context) in
def attachmentUnits : PageStretch :=
  (Stretch.concat (s.attachments.rows.map (s.attachmentRow c context))).andThen
    ⟨[], s.attachments.raised⟩

def collectionGap (s : PageSite) (name : String) : Raised → Option PageEvent
  | .connectorError | .permissionDenied =>
      some (.scopeGap .connectorError (some (.collection s.pageId (pyStr name))))
  | _ => none

variable (c s) in
def units (payload : Payload) (text : PyStr) : PageStretch :=
  let context := s.contextOf c payload
  (s.pageUnits context text).andThen <|
    (if c.wantComments then
      (Stretch.concat (commentEndpoints.map fun e => s.commentUnits c e context)).caught
        (s.collectionGap "comments")
    else ⟨[], none⟩).andThen <|
      if c.wantAttachments then
        (s.attachmentUnits c context).caught (s.collectionGap "attachments")
      else ⟨[], none⟩

variable (c s) in
/-- The turn of `fetch` for a page that is not passed over, and whether it comes to the
checkpoint. -/
def read : PageStretch × Bool :=
  match s.body c with
  | .error .connectorError | .error .permissionDenied =>
      (⟨[.failed .invalidResponse .page (some (.text s.pageId))], none⟩, false)
  | .error r => (⟨[], some r⟩, false)
  | .ok (payload, text) =>
      let stretch := s.units c payload text
      (stretch, stretch.raised.isNone)

variable (c s) in
/-- What comes of reading the page; none if an exception leaves the fetch. -/
def outcome : Option PageOutcome :=
  if (s.read c).1.raised.isSome then none
  else some <| if !(s.read c).2 then .failed
    else if (s.read c).1.events.any ObjectEvent.IsLoss then .partly else .read

theorem lossless_pageUnits {text : PyStr} (h : (s.pageUnits context text).Lossless)
    (htext : text ≠ []) : ∃ u ∈ (s.pageUnits context text).units,
      u.locator.resourceId = s.pageId ∧ u.locator.subResource = none ∧ u.text = text := by
  rw [pageUnits, if_neg htext] at h ⊢
  obtain ⟨u, hu⟩ :=
    Option.isSome_iff_exists.1 (lossless_yielding.1 (Stretch.lossless_andThen.1 h).2)
  obtain ⟨hid, hsub, hut, -⟩ := unit_eq_some hu
  refine ⟨u, ?_, hid, hsub, hut⟩
  rw [hu]
  exact List.mem_singleton_self _

theorem lossless_commentBody (h : (s.commentBody c context row).Lossless) :
    ∃ t, supportedBodyText c.tables row.body = .text t ∧ (t ≠ [] →
      ∃ u ∈ (s.commentBody c context row).units, IsCommentUnit c s context row u ∧ u.text = t) := by
  cases hbody : supportedBodyText c.tables row.body with
  | unsupported => simp [commentBody, hbody, Stretch.Lossless, ObjectEvent.IsLoss] at h
  | raised => simp [commentBody, hbody, Stretch.Lossless] at h
  | text t =>
      refine ⟨t, rfl, fun ht => ?_⟩
      have hsome : (s.unit context (some (commentSubResource row.id)) t .comment
          (.comment row.id)).isSome := by
        simp only [commentBody, hbody, if_neg ht] at h
        exact lossless_yielding.1 (Stretch.lossless_andThen.1 h).2
      obtain ⟨u, hu⟩ := Option.isSome_iff_exists.1 hsome
      have hmem : u ∈ (s.commentBody c context row).units := by
        simp only [commentBody, hbody, if_neg ht, hu]
        exact List.mem_singleton_self _
      exact ⟨u, hmem, (units_commentBody hmem).1, (unit_eq_some hu).2.2.1⟩

/-- Every comment of a thread that was read without loss. -/
theorem lossless_commentUnits (h : (s.commentUnits c endpoint context).Lossless) {id : PyStr}
    (hid : s.HasComment endpoint id) : ∃ row t, s.ListsComment endpoint row ∧ row.id = id ∧
      supportedBodyText c.tables row.body = .text t ∧ (t ≠ [] →
        ∃ u ∈ (s.commentUnits c endpoint context).units,
          IsCommentUnit c s context row u ∧ u.text = t) := by
  obtain ⟨row, hlisted, hrid, hraised, hevents⟩ := hid.reported h.1
  obtain ⟨t, ht, hunit⟩ := lossless_commentBody ⟨hraised, fun e he => h.2 e (hevents e he)⟩
  refine ⟨row, t, hlisted, hrid, ht, fun hne => ?_⟩
  obtain ⟨u, hu, hcomment⟩ := hunit hne
  obtain ⟨e, he, heu⟩ := List.mem_filterMap.1 hu
  exact ⟨u, List.mem_filterMap.2 ⟨e, hevents e he, heu⟩, hcomment⟩

theorem lossless_rows {rows : List Comment} (h : ∀ e ∈ unidentified rows, e.IsLoss = false) :
    ∀ row ∈ rows, row.id ≠ [] := by
  intro row hrow hid
  have hmem : (.failed .invalidMetadata .comment none : PageEvent) ∈ unidentified rows :=
    List.mem_map.2 ⟨row, List.mem_filter.2 ⟨hrow, by simp [hid]⟩, rfl⟩
  cases h _ hmem

/-- The listings of a thread that was read without loss are whole, and every row of them
names a comment. -/
theorem lossless_listings (h : (s.commentUnits c endpoint context).Lossless) :
    ((s.comments endpoint).raised = none ∧ ∀ row ∈ (s.comments endpoint).rows, row.id ≠ []) ∧
      ∀ id, s.HasComment endpoint id → (s.children endpoint id).raised = none ∧
        ∀ row ∈ (s.children endpoint id).rows, row.id ≠ [] := by
  obtain ⟨hroots, -⟩ := commentUnits_raised h.1
  have hevents := h.2
  rw [events_commentUnits] at hevents
  refine ⟨⟨hroots, lossless_rows fun e he => hevents e (List.mem_append_left _ he)⟩, ?_⟩
  intro id hid
  obtain ⟨row, hrow, rfl⟩ := (mem_visited_iff h.1).2 hid
  have hturn := commentTurn_raised h.1 hrow
  have hlossless : (s.commentTurn c endpoint context row).Lossless :=
    ⟨hturn, fun e he => hevents e (List.mem_append_right _ (List.mem_flatMap.2 ⟨row, hrow, he⟩))⟩
  obtain ⟨-, hraised, hreplies⟩ := Stretch.lossless_andThen.1 hlossless
  exact ⟨hraised, lossless_rows hreplies⟩

/-- A file of the page with nothing of it left out. -/
structure AttachmentRead (c : ConfluenceConnector) (s : PageSite) (units : List PageUnit)
    (a : Attachment) (bytes : List UInt8) : Prop where
  download : a.download = .data bytes
  complete : (c.readers.extractText c.limits bytes a.title).outcome.IsIncomplete = false
  unit : (c.readers.extractText c.limits bytes a.title).outcome = .extracted →
    (c.readers.extractText c.limits bytes a.title).truncated = false ∧ ∃ u ∈ units,
      u.locator.resourceId = s.pageId ∧
      u.locator.subResource = some (pyStr "attachment:" ++ a.title) ∧
      u.text = (c.readers.extractText c.limits bytes a.title).text

theorem lossless_attachmentRow {a : Attachment} (h : (s.attachmentRow c context a).Lossless) :
    ∃ bytes, AttachmentRead c s (s.attachmentRow c context a).units a bytes := by
  unfold attachmentRow at h ⊢
  by_cases hmeta : a.title = [] ∨ !a.hasLink
  · rw [if_pos hmeta] at h
    simp [Stretch.Lossless, ObjectEvent.IsLoss] at h
  by_cases hsize : a.fileSize.any ((c.limits.maxInputBytes : ℤ) < ·)
  · rw [if_neg hmeta, if_pos hsize] at h
    simp [Stretch.Lossless, ObjectEvent.IsLoss] at h
  rw [if_neg hmeta, if_neg hsize] at h ⊢
  cases hdownload : a.download with
  | tooLarge => simp [hdownload, Stretch.Lossless, ObjectEvent.IsLoss] at h
  | raised r => cases r <;> simp [hdownload, Stretch.Lossless, ObjectEvent.IsLoss] at h
  | data bytes =>
      rw [hdownload] at h
      obtain ⟨hcomplete, htext⟩ := lossless_extraction_iff.1 h
      refine ⟨bytes, hdownload, hcomplete, fun hout => ?_⟩
      obtain ⟨htruncated, hsome⟩ := htext hout
      obtain ⟨u, hu⟩ := Option.isSome_iff_exists.1 hsome
      obtain ⟨hid, hsub, hut, -⟩ := unit_eq_some hu
      refine ⟨htruncated, u, ?_, hid, hsub, hut⟩
      exact List.mem_filterMap.2 ⟨_, unit_mem_extraction hout hu, rfl⟩

/-- All there is of a page: its text, the text of every comment in its threads and of every
file attached to it that has one, in the units. -/
structure ReadInFull (c : ConfluenceConnector) (s : PageSite) (units : List PageUnit) : Prop where
  body : ∃ payload text, s.body c = .ok (payload, text) ∧ (text ≠ [] → ∃ u ∈ units,
    u.locator.resourceId = s.pageId ∧ u.locator.subResource = none ∧ u.text = text)
  listings : c.wantComments → ∀ endpoint,
    ((s.comments endpoint).raised = none ∧ ∀ row ∈ (s.comments endpoint).rows, row.id ≠ []) ∧
    ∀ id, s.HasComment endpoint id → (s.children endpoint id).raised = none ∧
      ∀ row ∈ (s.children endpoint id).rows, row.id ≠ []
  comments : c.wantComments → ∀ endpoint id, s.HasComment endpoint id →
    ∃ row t, s.ListsComment endpoint row ∧ row.id = id ∧
      supportedBodyText c.tables row.body = .text t ∧ (t ≠ [] → ∃ u ∈ units,
        u.locator.resourceId = s.pageId ∧
        u.locator.subResource = some (commentSubResource id) ∧ u.text = t)
  attachments : c.wantAttachments → s.attachments.raised = none ∧
    ∀ a ∈ s.attachments.rows, ∃ bytes, AttachmentRead c s units a bytes

theorem mem_commentEndpoints (endpoint : CommentEndpoint) : endpoint ∈ commentEndpoints := by
  cases endpoint <;> decide

theorem isLoss_collectionGap {name : String} (r : Raised) (e : PageEvent)
    (h : s.collectionGap name r = some e) : e.IsLoss := by
  cases r <;> cases h <;> rfl

theorem AttachmentRead.mono {units units' : List PageUnit} {a : Attachment} {bytes : List UInt8}
    (h : AttachmentRead c s units a bytes) (hsub : ∀ u ∈ units, u ∈ units') :
    AttachmentRead c s units' a bytes where
  download := h.download
  complete := h.complete
  unit hout := (h.unit hout).imp_right fun ⟨u, hu, hrest⟩ => ⟨u, hsub u hu, hrest⟩

theorem lossless_comments
    (h : (Stretch.concat (commentEndpoints.map fun e => s.commentUnits c e context)).Lossless)
    (endpoint : CommentEndpoint) : (s.commentUnits c endpoint context).Lossless ∧
      ∀ u ∈ (s.commentUnits c endpoint context).units,
        u ∈ (Stretch.concat (commentEndpoints.map fun e => s.commentUnits c e context)).units := by
  have hall := Stretch.lossless_concat.1 h
  have hmem := List.mem_map_of_mem (f := fun e => s.commentUnits c e context)
    (mem_commentEndpoints endpoint)
  exact ⟨hall _ hmem, fun u hu =>
    (Stretch.mem_units_concat fun t ht => (hall t ht).1).2 ⟨_, hmem, hu⟩⟩

theorem lossless_attachments (h : (s.attachmentUnits c context).Lossless) :
    s.attachments.raised = none ∧ ∀ a ∈ s.attachments.rows,
      ∃ bytes, AttachmentRead c s (s.attachmentUnits c context).units a bytes := by
  unfold attachmentUnits at h ⊢
  obtain ⟨hrows, hend⟩ := Stretch.lossless_andThen.1 h
  refine ⟨hend.1, fun a ha => ?_⟩
  have hall := Stretch.lossless_concat.1 hrows
  have hmem := List.mem_map_of_mem (f := s.attachmentRow c context) ha
  obtain ⟨bytes, hread⟩ := lossless_attachmentRow (hall _ hmem)
  refine ⟨bytes, hread.mono fun u hu => ?_⟩
  rw [Stretch.units_andThen hrows.1]
  exact List.mem_append_left _
    ((Stretch.mem_units_concat fun t ht => (hall t ht).1).2 ⟨_, hmem, hu⟩)

theorem lossless_units {payload : Payload} {text : PyStr} (hbody : s.body c = .ok (payload, text))
    (h : (s.units c payload text).Lossless) : ReadInFull c s (s.units c payload text).units := by
  unfold units at h ⊢
  generalize s.contextOf c payload = context at h ⊢
  obtain ⟨hpage, hrest⟩ := Stretch.lossless_andThen.1 h
  obtain ⟨hcomments, hattachments⟩ := Stretch.lossless_andThen.1 hrest
  rw [Stretch.units_andThen hpage.1, Stretch.units_andThen hcomments.1]
  refine ⟨⟨payload, text, hbody, fun htext => ?_⟩, fun hwant endpoint => ?_, ?_, fun hwant => ?_⟩
  · obtain ⟨u, hu, hunit⟩ := lossless_pageUnits hpage htext
    exact ⟨u, List.mem_append_left _ hu, hunit⟩
  · rw [if_pos hwant, Stretch.lossless_caught isLoss_collectionGap] at hcomments
    exact lossless_listings (lossless_comments hcomments endpoint).1
  · intro hwant endpoint id hid
    rw [if_pos hwant] at hcomments ⊢
    have hlossless := (Stretch.lossless_caught isLoss_collectionGap).1 hcomments
    obtain ⟨hthread, hsub⟩ := lossless_comments hlossless endpoint
    obtain ⟨row, t, hlisted, rfl, ht, hunit⟩ := lossless_commentUnits hthread hid
    refine ⟨row, t, hlisted, rfl, ht, fun hne => ?_⟩
    obtain ⟨u, hu, hcomment, hut⟩ := hunit hne
    refine ⟨u, ?_, hcomment.resourceId, hcomment.subResource, hut⟩
    rw [Stretch.caught_of_not_raised hlossless.1]
    exact List.mem_append_right _ (List.mem_append_left _ (hsub u hu))
  · rw [if_pos hwant] at hattachments ⊢
    have hlossless := (Stretch.lossless_caught isLoss_collectionGap).1 hattachments
    obtain ⟨hend, hrows⟩ := lossless_attachments hlossless
    refine ⟨hend, fun a ha => ?_⟩
    obtain ⟨bytes, hread⟩ := hrows a ha
    refine ⟨bytes, hread.mono fun u hu => ?_⟩
    rw [Stretch.caught_of_not_raised hlossless.1]
    exact List.mem_append_right _ (List.mem_append_right _ hu)

/-- A page counts as read exactly if its reading lost nothing. -/
theorem outcome_eq_read_iff :
    s.outcome c = some .read ↔ (s.read c).2 = true ∧ (s.read c).1.Lossless := by
  unfold outcome Stretch.Lossless
  cases hraised : (s.read c).1.raised with
  | some r => simp
  | none =>
      cases hend : (s.read c).2 with
      | false => simp
      | true =>
          cases hany : (s.read c).1.events.any ObjectEvent.IsLoss with
          | true =>
              obtain ⟨e, he, hloss⟩ := List.any_eq_true.1 hany
              simp only [Option.isSome_none, Bool.false_eq_true, if_false, Bool.not_true, if_true,
                Option.some.injEq, true_and, reduceCtorEq, false_iff, not_forall]
              exact ⟨e, he, by simp [hloss]⟩
          | false => simpa [List.any_eq_false] using hany

/-- A page whose checkpoint is not come to has lost something, its body at least. -/
theorem not_lossless_of_unfinished (h : (s.read c).2 = false) : ¬ (s.read c).1.Lossless := by
  unfold read at h ⊢
  cases hbody : s.body c with
  | error r => cases r <;> simp [Stretch.Lossless, ObjectEvent.IsLoss]
  | ok body =>
      intro hlossless
      have hraised : (s.units c body.1 body.2).raised = none := hlossless.1
      simp [hbody, hraised] at h

theorem readInFull_of_outcome (h : s.outcome c = some .read) :
    ReadInFull c s (s.read c).1.units := by
  obtain ⟨hend, hlossless⟩ := outcome_eq_read_iff.1 h
  unfold read at hend hlossless ⊢
  cases hbody : s.body c with
  | error r => cases r <;> simp [hbody] at hend
  | ok body =>
      rw [hbody] at hlossless
      exact lossless_units hbody hlossless

end PageSite

structure SpaceFetch where
  newest : Option ℕ := none
  skipping : Bool
  stretch : PageStretch := ⟨[], none⟩
  checkpoint : Option String := none

namespace SpaceFetch

def start (resume : Option String) : SpaceFetch := { skipping := resume.isSome }

/-- One turn of the loop over the listing; an exception leaves the loop. -/
def turn (c : ConfluenceConnector) (since : Option ℕ) (resume : Option String) (f : SpaceFetch)
    (s : PageSite) : SpaceFetch :=
  if f.stretch.raised.isSome then f
  else if s.page.id = "" then
    { f with stretch := f.stretch.andThen ⟨[.failed .invalidMetadata .page none], none⟩ }
  else
    let newest := newer f.newest s.page.createdAt
    if unchanged since s.page then { f with newest }
    else if f.skipping then { f with newest, skipping := some s.page.id ≠ resume }
    else
      { f with
        newest
        stretch := f.stretch.andThen (s.read c).1
        checkpoint := if (s.read c).2 then some s.page.id else f.checkpoint }

def across (c : ConfluenceConnector) (since : Option ℕ) (resume : Option String)
    (sites : List PageSite) : SpaceFetch :=
  sites.foldl (turn c since resume) (start resume)

/-- Behind the listing: the page to resume after is gone, or the newest date is proposed. -/
def finish (spaceId : PyStr) (resume : Option String) (f : SpaceFetch) :
    PageStretch × Option ℕ :=
  if f.stretch.raised.isSome then (f.stretch, none)
  else if f.skipping ∧ resume.isSome then
    (f.stretch.andThen
      ⟨[.scopeGap .missingResource (some (.resume spaceId (resume.elim [] pyStr)))], none⟩,
      none)
  else (f.stretch, f.newest)

end SpaceFetch

/-- What the abstract attempt makes of the same listing. -/
def attemptAcross (c : ConfluenceConnector) (since : Option ℕ) (resume : Option String)
    (stored : List Page) (sites : List PageSite) : Attempt :=
  sites.foldl (fun a s => a.visit since s.page ((s.outcome c).getD .failed))
    (Attempt.start resume stored)

/-- A fetch is where an attempt is: it has come to the same date, resume point and
checkpoint, and it has lost something exactly if the attempt has met a gap. If nothing is
lost, it has all there is of the pages the attempt is done with. -/
structure SpaceFetch.Follows (c : ConfluenceConnector) (sites : List PageSite) (f : SpaceFetch)
    (a : Attempt) : Prop where
  newest : f.newest = a.newest
  skipping : f.skipping = a.skipping
  checkpoint : f.checkpoint = a.after
  listed : a.listed = sites.map PageSite.page
  gap : f.stretch.Lossless ↔ a.gap = false
  pending : f.stretch.Lossless → ∀ page ∈ a.pending, ∃ s ∈ sites, s.page = page ∧
    PageSite.ReadInFull c s f.stretch.units

section
variable {c : ConfluenceConnector} {since : Option ℕ} {resume : Option String}
  {sites : List PageSite} {f : SpaceFetch} {a : Attempt} {s : PageSite}

theorem PageSite.ReadInFull.mono {units units' : List PageUnit}
    (h : PageSite.ReadInFull c s units) (hsub : ∀ u ∈ units, u ∈ units') :
    PageSite.ReadInFull c s units' where
  body := by
    obtain ⟨payload, text, hbody, hunit⟩ := h.body
    exact ⟨payload, text, hbody, fun hne => (hunit hne).imp fun u hu => ⟨hsub u hu.1, hu.2⟩⟩
  listings := h.listings
  comments hwant endpoint id hid := by
    obtain ⟨row, t, hlisted, hrow, ht, hunit⟩ := h.comments hwant endpoint id hid
    exact ⟨row, t, hlisted, hrow, ht,
      fun hne => (hunit hne).imp fun u hu => ⟨hsub u hu.1, hu.2⟩⟩
  attachments hwant := by
    obtain ⟨hend, hrows⟩ := h.attachments hwant
    exact ⟨hend, fun a ha => (hrows a ha).imp fun bytes hread => hread.mono hsub⟩

theorem SpaceFetch.raised_of_turn (h : (f.turn c since resume s).stretch.raised = none) :
    f.stretch.raised = none := by
  unfold turn at h
  cases hraised : f.stretch.raised with
  | none => rfl
  | some r => simp [hraised] at h

theorem SpaceFetch.Follows.read (h : f.Follows c sites a)
    (hraised : (f.stretch.andThen (s.read c).1).raised = none) :
    SpaceFetch.Follows c (sites ++ [s])
      { f with
        newest := newer f.newest s.page.createdAt
        stretch := f.stretch.andThen (s.read c).1
        checkpoint := if (s.read c).2 then some s.page.id else f.checkpoint }
      ((a.shown s.page).reading s.page ((s.outcome c).getD .failed)) := by
  obtain ⟨hf, hs⟩ := Stretch.raised_andThen.1 hraised
  have hold : ∀ u ∈ f.stretch.units, u ∈ (f.stretch.andThen (s.read c).1).units := fun u hu => by
    rw [Stretch.units_andThen hf]
    exact List.mem_append_left _ hu
  have hpending (hlossless : f.stretch.Lossless) : ∀ page ∈ a.pending, ∃ x ∈ sites ++ [s],
      x.page = page ∧ PageSite.ReadInFull c x (f.stretch.andThen (s.read c).1).units := by
    intro page hpage
    obtain ⟨x, hx, heq, hread⟩ := h.pending hlossless page hpage
    exact ⟨x, List.mem_append_left _ hx, heq, hread.mono hold⟩
  have hlisted : (a.shown s.page).listed = (sites ++ [s]).map PageSite.page := by
    simp [Attempt.shown, h.listed]
  cases hout : s.outcome c with
  | none => simp [PageSite.outcome, hs] at hout
  | some o =>
      have hend : (s.read c).2 = decide (o ≠ .failed) := by
        unfold PageSite.outcome at hout
        rw [hs] at hout
        cases hread : (s.read c).2 <;> simp [hread] at hout <;> subst hout
        · rfl
        · split_ifs <;> rfl
      have hloss : (s.read c).1.Lossless ↔ o = .read := by
        rw [← Option.some_inj, ← hout, PageSite.outcome_eq_read_iff]
        refine ⟨fun hlossless => ⟨?_, hlossless⟩, fun hread => hread.2⟩
        by_contra hfalse
        exact PageSite.not_lossless_of_unfinished (Bool.eq_false_iff.2 hfalse) hlossless
      have hnewest : newer f.newest s.page.createdAt = newer a.newest s.page.createdAt := by
        rw [h.newest]
      cases o with
      | read =>
          refine ⟨hnewest, h.skipping, by simp [hend, Attempt.reading], hlisted, ?_, ?_⟩
          · rw [Stretch.lossless_andThen, h.gap]
            simp [hloss, Attempt.reading, Attempt.shown]
          · intro hlossless page hpage
            rcases List.mem_append.1 hpage with hpage | hpage
            · exact hpending (Stretch.lossless_andThen.1 hlossless).1 page hpage
            · refine ⟨s, List.mem_append_right _ (List.mem_singleton_self _),
                (List.mem_singleton.1 hpage).symm, ?_⟩
              refine (PageSite.readInFull_of_outcome hout).mono fun u hu => ?_
              rw [Stretch.units_andThen hf]
              exact List.mem_append_right _ hu
      | partly =>
          refine ⟨hnewest, h.skipping, by simp [hend, Attempt.reading], hlisted, ?_, ?_⟩
          · rw [Stretch.lossless_andThen, h.gap]
            simp [hloss, Attempt.reading]
          · exact fun hlossless => by simpa [hloss] using (Stretch.lossless_andThen.1 hlossless).2
      | failed =>
          refine ⟨hnewest, h.skipping, ?_, hlisted, ?_, ?_⟩
          · simp [hend, Attempt.reading, Attempt.shown, h.checkpoint]
          · rw [Stretch.lossless_andThen, h.gap]
            simp [hloss, Attempt.reading]
          · exact fun hlossless => by simpa [hloss] using (Stretch.lossless_andThen.1 hlossless).2

/-- One turn of the loop is one turn of the attempt. -/
theorem SpaceFetch.Follows.turn (h : f.Follows c sites a) (hresume : a.resume = resume)
    (hraised : (f.turn c since resume s).stretch.raised = none) :
    SpaceFetch.Follows c (sites ++ [s]) (f.turn c since resume s)
      (a.visit since s.page ((s.outcome c).getD .failed)) := by
  have hf := raised_of_turn hraised
  unfold SpaceFetch.turn at hraised ⊢
  unfold Attempt.visit
  have hlisted : a.listed ++ [s.page] = (sites ++ [s]).map PageSite.page := by simp [h.listed]
  have hnewest : newer f.newest s.page.createdAt = newer a.newest s.page.createdAt := by
    rw [h.newest]
  have hpending (hlossless : f.stretch.Lossless) : ∀ page ∈ a.pending, ∃ x ∈ sites ++ [s],
      x.page = page ∧ PageSite.ReadInFull c x f.stretch.units := by
    intro page hpage
    obtain ⟨x, hx, hrest⟩ := h.pending hlossless page hpage
    exact ⟨x, List.mem_append_left _ hx, hrest⟩
  simp only [hf, Option.isSome_none, Bool.false_eq_true, if_false] at hraised ⊢
  by_cases hid : s.page.id = ""
  · simp only [if_pos hid]
    have hlost : ¬ (f.stretch.andThen
        ⟨[.failed .invalidMetadata .page none], none⟩).Lossless := fun hlossless => by
      cases (Stretch.lossless_andThen.1 hlossless).2.2 _ (List.mem_singleton_self _)
    refine ⟨h.newest, h.skipping, h.checkpoint, hlisted, ?_, fun hlossless => ?_⟩
    · simp [hlost]
    · exact absurd hlossless hlost
  simp only [if_neg hid] at hraised ⊢
  by_cases hunchanged : unchanged since s.page
  · simp only [if_pos hunchanged]
    exact ⟨hnewest, h.skipping, h.checkpoint, hlisted, h.gap, hpending⟩
  simp only [if_neg hunchanged] at hraised ⊢
  by_cases hskip : f.skipping
  · simp only [if_pos hskip, if_pos (h.skipping ▸ hskip)]
    exact ⟨hnewest, by rw [hresume], h.checkpoint, hlisted, h.gap, hpending⟩
  simp only [if_neg hskip, if_neg (h.skipping ▸ hskip)] at hraised ⊢
  exact h.read hraised

theorem resume_visit {page : Page} {o : PageOutcome} :
    (a.visit since page o).resume = a.resume := by
  unfold Attempt.visit
  split_ifs
  · rfl
  · rfl
  · rfl
  · cases o <;> rfl

theorem SpaceFetch.across_snoc :
    SpaceFetch.across c since resume (sites ++ [s]) =
      (SpaceFetch.across c since resume sites).turn c since resume s := by
  simp [SpaceFetch.across]

theorem attemptAcross_snoc {stored : List Page} :
    attemptAcross c since resume stored (sites ++ [s]) =
      (attemptAcross c since resume stored sites).visit since s.page
        ((s.outcome c).getD .failed) := by
  simp [attemptAcross]

theorem resume_attemptAcross {stored : List Page} :
    (attemptAcross c since resume stored sites).resume = resume := by
  induction sites using List.reverseRecOn with
  | nil => rfl
  | append_singleton sites s ih => rw [attemptAcross_snoc, resume_visit, ih]

theorem SpaceFetch.follows_attempt (stored : List Page)
    (h : (SpaceFetch.across c since resume sites).stretch.raised = none) :
    (SpaceFetch.across c since resume sites).Follows c sites
      (attemptAcross c since resume stored sites) := by
  induction sites using List.reverseRecOn with
  | nil =>
      refine ⟨rfl, rfl, rfl, rfl, ?_, fun _ page hpage => absurd hpage List.not_mem_nil⟩
      simp [SpaceFetch.across, SpaceFetch.start, attemptAcross, Attempt.start, Stretch.Lossless]
  | append_singleton sites s ih =>
      rw [SpaceFetch.across_snoc] at h ⊢
      rw [attemptAcross_snoc]
      exact (ih (SpaceFetch.raised_of_turn h)).turn resume_attemptAcross h

theorem resume_of_skipping {stored : List Page}
    (h : (attemptAcross c since resume stored sites).skipping) : resume.isSome := by
  induction sites using List.reverseRecOn with
  | nil => exact h
  | append_singleton sites s ih =>
      rw [attemptAcross_snoc] at h
      apply ih
      unfold Attempt.visit at h
      split_ifs at h with hid hunchanged hskip
      · exact h
      · exact h
      · exact hskip
      · cases hout : (s.outcome c).getD .failed <;> rw [hout] at h <;> exact h

/-- A fetch that no exception leaves goes the way of the attempt over the same listing, to
the same checkpoint. It has lost nothing exactly if the attempt is complete; then the date
it proposes is the attempt's, and all there is of the pages the attempt is done with is in
its units. So what is proved of the watermarks of attempts holds of the connector. -/
theorem fetch_follows_attempt (c : ConfluenceConnector) (since : Option ℕ)
    (resume : Option String) (stored : List Page) (spaceId : PyStr) (sites : List PageSite)
    (h : (SpaceFetch.across c since resume sites).stretch.raised = none) :
    let f := SpaceFetch.across c since resume sites
    let a := attemptAcross c since resume stored sites
    f.Follows c sites a ∧
      ((f.finish spaceId resume).1.Lossless ↔ a.incomplete = false) ∧
      (a.incomplete = false → (f.finish spaceId resume).2 = a.newest ∧
        ∀ page ∈ a.pending, ∃ s ∈ sites, s.page = page ∧
          PageSite.ReadInFull c s (f.finish spaceId resume).1.units) := by
  intro f a
  have hfollows : f.Follows c sites a := SpaceFetch.follows_attempt stored h
  refine ⟨hfollows, ?_⟩
  unfold SpaceFetch.finish Attempt.incomplete
  rw [if_neg (by simp [f, h])]
  by_cases hskip : f.skipping
  · have hresume := resume_of_skipping (hfollows.skipping ▸ hskip : a.skipping = true)
    rw [if_pos ⟨hskip, hresume⟩]
    have hincomplete : (a.gap || a.skipping) = true := by simp [← hfollows.skipping, hskip]
    rw [hincomplete]
    refine ⟨?_, fun hfalse => by cases hfalse⟩
    simp only [Bool.true_eq_false, iff_false]
    intro hlossless
    cases (Stretch.lossless_andThen.1 hlossless).2.2 _ (List.mem_singleton_self _)
  · rw [if_neg fun hboth => hskip hboth.1]
    have hincomplete : (a.gap || a.skipping) = a.gap := by
      simp [← hfollows.skipping, Bool.eq_false_iff.2 hskip]
    rw [hincomplete]
    exact ⟨hfollows.gap, fun hgap =>
      ⟨hfollows.newest, hfollows.pending (hfollows.gap.2 hgap)⟩⟩

def asciiConnector : ConfluenceConnector where
  tables := Storage.asciiTables
  readers := asciiReaders
  resolve := id

def circularComments : List Comment :=
  [⟨pyStr "7", some { storage := some (pyStr "pw") }⟩]

def circularReplies (id : PyStr) : List Comment :=
  if id = pyStr "7" then [⟨pyStr "8", some { view := some (pyStr "no") }⟩]
  else if id = pyStr "8" then circularComments
  else []

def circularPage : PageSite where
  page := ⟨"1", 1, some 5⟩
  listed := { body := some { storage := some (pyStr "key") } }
  detail := .error .connectorError
  comments e := ⟨if e = .footer then circularComments else [], none⟩
  children e id := ⟨if e = .footer then circularReplies id else [], none⟩
  attachments := ⟨[], none⟩
  commentIds := {pyStr "7", pyStr "8"}
  comments_listed e row hrow := by
    cases e
    · rw [List.mem_singleton.1 hrow]
      exact Finset.mem_insert_self _ _
    · cases hrow
  children_listed e id row hrow := by
    cases e
    · have hrow : row ∈ circularReplies id := hrow
      unfold circularReplies at hrow
      split_ifs at hrow
      · rw [List.mem_singleton.1 hrow]
        exact Finset.mem_insert_of_mem (Finset.mem_singleton_self _)
      · rw [List.mem_singleton.1 hrow]
        exact Finset.mem_insert_self _ _
      · cases hrow
    · cases hrow

theorem circularPage_read :
    let f := SpaceFetch.across asciiConnector none none [circularPage]
    (f.stretch.units.map PageUnit.text = [pyStr "key", pyStr "pw", pyStr "no"] ∧
      f.stretch.raised = none) ∧
    f.Follows asciiConnector [circularPage]
      (attemptAcross asciiConnector none none [] [circularPage]) := by
  have hread : (SpaceFetch.across asciiConnector none none [circularPage]).stretch.units.map
        PageUnit.text = [pyStr "key", pyStr "pw", pyStr "no"] ∧
      (SpaceFetch.across asciiConnector none none [circularPage]).stretch.raised = none :=
    ⟨rfl, rfl⟩
  exact ⟨hread, (fetch_follows_attempt asciiConnector none none [] [] [circularPage] hread.2).1⟩

end

end IcebergSST.Confluence
