import IcebergSST.Adf
import IcebergSST.JiraResume
import IcebergSST.Units

/-!
# Reading an issue

An issue has a body, comments, attachments and a history of its fields. Each entry of the
history says what some fields changed from and to; a value is in two entries, the one that
set it and the one that replaced it, and is scanned once.
-/

namespace IcebergSST.Jira

open Content Adf

/-- A comment; the id is empty if there is none. -/
structure IssueComment where
  id : PyStr
  fields : Mapping

structure IssueAttachment where
  id : PyStr
  filename : PyStr
  content : PyStr
  size : Option ℤ
  mimeType : PyStr
  download : Download

/-- What an entry of the changelog says of one field. A value that is no string is empty. -/
structure ChangeItem where
  fieldId : PyStr
  field : PyStr := []
  before : PyStr
  after : PyStr
  deriving DecidableEq

/-- The items are those of a list; what is no object among them is none. -/
structure HistoryEntry where
  id : PyStr
  items : Option (List (Option ChangeItem))
  deriving DecidableEq

structure IssueSite where
  /-- The id, empty if there is none. -/
  issue : String
  issueKey : PyStr := []
  fields : Option Mapping
  /-- The minute of a date of the issue, if it is readable. -/
  at? : DateField → Option ℕ
  attachments : Option (List (Option IssueAttachment)) := none
  comments : Listing IssueComment := { rows := [] }
  changelog : Listing HistoryEntry := { rows := [] }

structure JiraConnector where
  digits : DecimalDigits
  readers : Readers
  limits : ExtractionLimits := {}
  /-- Without the slashes at its end. -/
  baseUrl : PyStr := []
  key : PyStr
  includeComments : Bool := true
  includeAttachments : Bool := true
  includeHistory : Bool := false

inductive IssueReference
  | text (s : PyStr)
  | collection (project issue name : PyStr)
  | history (issue : PyStr)
  deriving DecidableEq

/-- The identity of a unit. A blank one cannot be built. -/
structure IssueLocator where
  resourceId : PyStr
  subResource : Option PyStr
  not_blank : blank resourceId = false

instance : DecidableEq IssueLocator := fun l l' =>
  decidable_of_iff (l.resourceId = l'.resourceId ∧ l.subResource = l'.subResource) (by
    cases l
    cases l'
    simp)

inductive IssueOrigin
  | body
  | comment
  | attachment
  deriving DecidableEq, Repr

structure IssueContext where
  path : PyStr
  url : PyStr
  title : PyStr
  project : PyStr
  issueKey : PyStr
  deriving DecidableEq

inductive IssueDisplay
  | issue
  | comment (commentId : PyStr)
  | attachment (filename mediaType : PyStr) (truncated : Bool)
  | history (historyId field : PyStr)
  deriving DecidableEq

structure IssueUnit where
  locator : IssueLocator
  text : PyStr
  origin : IssueOrigin
  context : IssueContext
  display : IssueDisplay
  deriving DecidableEq

abbrev UnitEvent := ObjectEvent IssueReference IssueUnit

abbrev IssueStretch := Stretch IssueReference IssueUnit

def joinLines (pieces : List PyStr) : PyStr := [0x0a].intercalate pieces

def bodyFields : List String := ["summary", "description", "environment"]

def maxHistoryEntries : ℕ := 1000

def ChangeItem.key (item : ChangeItem) : PyStr :=
  PyStr.strip (if item.fieldId ≠ [] then item.fieldId else item.field)

namespace IssueSite

variable (c : JiraConnector) (s : IssueSite)

def issueId : PyStr := pyStr s.issue

def context : IssueContext where
  path := if s.issueKey ≠ [] then c.key ++ pyStr "/" ++ s.issueKey else c.key
  url :=
    if c.baseUrl ≠ [] ∧ s.issueKey ≠ [] then c.baseUrl ++ pyStr "/browse/" ++ s.issueKey else []
  title := (s.fields.bind fun fields => fields.getString "summary").getD []
  project := c.key
  issueKey := s.issueKey

def unit (subResource : Option PyStr) (text : PyStr) (origin : IssueOrigin)
    (display : IssueDisplay) : Option IssueUnit :=
  if h : blank s.issueId = false then
    some { locator := ⟨s.issueId, subResource, h⟩, text, origin, context := s.context c, display }
  else none

/-- The texts of these fields that are not empty; none if one of them is unread. -/
def pieces (fields : Mapping) : List String → Option (List PyStr)
  | [] => some []
  | name :: names =>
      let (present, text) := issueFieldText c.digits fields (pyStr name)
      if present then (pieces fields names).map fun rest => if text ≠ [] then text :: rest else rest
      else none

/-- `_body_units`; a response without fields is a `ConnectorError`. -/
def bodyUnits : IssueStretch :=
  match s.fields with
  | none => ⟨[], some .connectorError⟩
  | some fields =>
      match pieces c fields bodyFields with
      | none => ⟨[.failed .invalidResponse .record (some (.text s.issueId))], none⟩
      | some texts =>
          let body := joinLines texts
          if body = [] then
            ⟨[.skipped .emptyContent .record (some (.text s.issueId))], none⟩
          else (⟨[.scanned .record (.text s.issueId)], none⟩ : IssueStretch).andThen
            (yielding (s.unit c none body .body .issue))

def commentRow (comment : IssueComment) : IssueStretch :=
  if comment.id = [] then ⟨[.failed .invalidMetadata .comment none], none⟩
  else
    let (present, text) := issueFieldText c.digits comment.fields (pyStr "body")
    if !present then
      ⟨[.failed .invalidResponse .comment (some (.text comment.id))], none⟩
    else if text = [] then
      ⟨[.skipped .emptyContent .comment (some (.text comment.id))], none⟩
    else (⟨[.scanned .comment (.text comment.id)], none⟩ : IssueStretch).andThen
      (yielding (s.unit c (some (pyStr "comment:" ++ comment.id)) text .comment
        (.comment comment.id)))

def commentUnits : IssueStretch :=
  (Stretch.concat (s.comments.rows.map (s.commentRow c))).andThen ⟨[], s.comments.raised⟩

/-- What is read of an item: the value it sets, and at the first item of a field also the
value the field had before. -/
def valuesOf (seen : List PyStr) (item : ChangeItem) : List PyStr :=
  ((if seen.contains item.key then [] else [item.before]) ++ [item.after]).filter (· ≠ [])

def historyItem (entryId : PyStr) (seen : List PyStr) (item : ChangeItem) : IssueStretch :=
  let reference := entryId ++ pyStr ":" ++ item.key
  let values := valuesOf seen item
  if values = [] then ⟨[.skipped .emptyContent .record (some (.text reference))], none⟩
  else (⟨[.scanned .record (.text reference)], none⟩ : IssueStretch).andThen
    (yielding (s.unit c (some (pyStr "history:" ++ entryId ++ pyStr ":" ++ item.key))
      (joinLines values) .body (.history entryId item.key)))

def historyItems (entryId : PyStr) : List PyStr → List (Option ChangeItem) →
    IssueStretch × List PyStr
  | seen, [] => (⟨[], none⟩, seen)
  | seen, none :: items => historyItems entryId seen items
  | seen, some item :: items =>
      if item.key = [] then historyItems entryId seen items
      else
        let rest := historyItems entryId (item.key :: seen) items
        ((s.historyItem c entryId seen item).andThen rest.1, rest.2)

def historyEntry (seen : List PyStr) (entry : HistoryEntry) : IssueStretch × List PyStr :=
  match entry.items with
  | none => (⟨[.failed .invalidMetadata .record none], none⟩, seen)
  | some items =>
      if entry.id = [] then (⟨[.failed .invalidMetadata .record none], none⟩, seen)
      else s.historyItems c entry.id seen items

/-- The entries behind so many that were read. -/
def historyFrom : ℕ → List PyStr → List HistoryEntry → IssueStretch
  | _, _, [] => ⟨[], s.changelog.raised⟩
  | entries, seen, entry :: rest =>
      if maxHistoryEntries ≤ entries then
        ⟨[.scopeGap .unreported (some (.history s.issueId))], none⟩
      else
        let turn := s.historyEntry c seen entry
        turn.1.andThen (historyFrom (entries + 1) turn.2 rest)

def historyUnits : IssueStretch := s.historyFrom c 0 [] s.changelog.rows

end IssueSite

def named (items : List (Option ChangeItem)) : List ChangeItem :=
  (items.filterMap id).filter (·.key ≠ [])

def HistoryEntry.changes (entry : HistoryEntry) : List ChangeItem :=
  if entry.id = [] then [] else named (entry.items.getD [])

/-- An entry that can be referred to. -/
def HistoryEntry.Usable (entry : HistoryEntry) : Prop := entry.id ≠ [] ∧ entry.items.isSome

instance (entry : HistoryEntry) : Decidable entry.Usable := inferInstanceAs (Decidable (_ ∧ _))

def changesOf (field : PyStr) (entries : List HistoryEntry) : List ChangeItem :=
  (entries.flatMap HistoryEntry.changes).filter (·.key = field)

/-- The values a field held: the one before its first change with the one that replaced
it, then what each change set. -/
def heldTexts : List ChangeItem → List PyStr
  | [] => []
  | first :: later =>
      joinLines ([first.before, first.after].filter (· ≠ [])) :: later.map ChangeItem.after

/-- What is still to be scanned of a field, it having been seen or not. -/
def remainingTexts (seen : Bool) (changes : List ChangeItem) : List PyStr :=
  if seen then changes.map ChangeItem.after else heldTexts changes

def historyTexts (field : PyStr) (units : List IssueUnit) : List PyStr :=
  units.filterMap fun u =>
    match u.display with
    | .history _ f => if f = field then some u.text else none
    | _ => none

theorem joinLines_singleton (text : PyStr) : joinLines [text] = text := by simp [joinLines]

theorem joinLines_eq_nil {texts : List PyStr} (h : ∀ t ∈ texts, t ≠ []) :
    joinLines texts = [] ↔ texts = [] := by
  constructor
  · intro hjoin
    rcases texts with _ | ⟨t, _ | ⟨t', texts⟩⟩
    · rfl
    · rw [joinLines_singleton] at hjoin
      exact absurd hjoin (h t List.mem_cons_self)
    · simp [joinLines, List.intercalate] at hjoin
  · rintro rfl
    rfl

theorem infix_joinLines {text : PyStr} {texts : List PyStr} (h : text ∈ texts) :
    text <:+: joinLines texts := by
  induction texts with
  | nil => cases h
  | cons t texts ih =>
      rcases texts with _ | ⟨t', texts⟩
      · rw [List.mem_singleton.1 h, joinLines_singleton]
      · have hcons : joinLines (t :: t' :: texts) = t ++ ([0x0a] ++ joinLines (t' :: texts)) := by
          simp [joinLines, List.intercalate]
        rw [hcons]
        rcases List.mem_cons.1 h with rfl | h
        · exact (List.prefix_append _ _).isInfix
        · exact (ih h).trans ((List.suffix_append _ _).trans (List.suffix_append _ _)).isInfix

theorem remainingTexts_append (seen : Bool) (changes changes' : List ChangeItem) :
    remainingTexts seen (changes ++ changes') =
      remainingTexts seen changes ++ remainingTexts (seen || !changes.isEmpty) changes' := by
  cases seen with
  | true => simp [remainingTexts]
  | false =>
      cases changes with
      | nil => rfl
      | cons first later => simp [remainingTexts, heldTexts]

theorem historyTexts_append (field : PyStr) (us vs : List IssueUnit) :
    historyTexts field (us ++ vs) = historyTexts field us ++ historyTexts field vs :=
  List.filterMap_append

namespace IssueSite

variable {c : JiraConnector} {s : IssueSite} {entryId : PyStr} {seen : List PyStr}

theorem unit_isSome {sub : Option PyStr} {text : PyStr} {origin : IssueOrigin}
    {display : IssueDisplay}
    (h : blank s.issueId = false ∨
      (yielding (s.unit c sub text origin display) : IssueStretch).raised = none) :
    ∃ u, s.unit c sub text origin display = some u ∧ u.text = text ∧ u.display = display := by
  by_cases hblank : blank s.issueId = false
  · exact ⟨_, dif_pos hblank, rfl, rfl⟩
  · rcases h with h | h
    · exact absurd h hblank
    · rw [unit, dif_neg hblank] at h
      cases h

theorem historyItem_spec {item : ChangeItem}
    (h : blank s.issueId = false ∨ (s.historyItem c entryId seen item).raised = none) :
    (s.historyItem c entryId seen item).Lossless ∧ ∀ field,
      historyTexts field (s.historyItem c entryId seen item).units =
        if item.key = field then
          (remainingTexts (decide (field ∈ seen)) [item]).filter (· ≠ []) else [] := by
  have hvalues : remainingTexts (decide (item.key ∈ seen)) [item] =
      [joinLines (valuesOf seen item)] := by
    unfold remainingTexts valuesOf
    by_cases hmem : item.key ∈ seen
    · by_cases hafter : item.after = []
      · simp [hmem, hafter, joinLines]
      · simp [hmem, hafter, joinLines_singleton]
    · simp [hmem, heldTexts]
  have hjoin : joinLines (valuesOf seen item) = [] ↔ valuesOf seen item = [] :=
    joinLines_eq_nil fun t ht => of_decide_eq_true (List.mem_filter.1 ht).2
  unfold historyItem at h ⊢
  dsimp only at h ⊢
  split_ifs at h ⊢ with hnone
  · refine ⟨⟨rfl, by simp [ObjectEvent.IsLoss]⟩, fun field => ?_⟩
    split_ifs with hfield
    · subst hfield
      rw [hvalues, List.filter_cons_of_neg (by simp [hjoin.2 hnone])]
      rfl
    · rfl
  · obtain ⟨u, hu, htext, hdisplay⟩ :=
      unit_isSome (h.imp_right fun hraised => (Stretch.raised_andThen.1 hraised).2)
    rw [hu]
    refine ⟨Stretch.lossless_andThen.2 ⟨⟨rfl, by simp [ObjectEvent.IsLoss]⟩,
      lossless_yielding.2 rfl⟩, fun field => ?_⟩
    rw [Stretch.units_andThen rfl, historyTexts_append]
    split_ifs with hfield
    · subst hfield
      rw [hvalues, List.filter_cons_of_pos (by simpa [hjoin] using hnone)]
      simp [Stretch.units, yielding, ObjectEvent.unit?, historyTexts, hdisplay, htext]
    · simp [Stretch.units, yielding, ObjectEvent.unit?, historyTexts, hdisplay, hfield]

theorem historyItems_spec (items : List (Option ChangeItem)) (seen : List PyStr)
    (h : blank s.issueId = false ∨ (s.historyItems c entryId seen items).1.raised = none) :
    let turn := s.historyItems c entryId seen items
    turn.1.Lossless ∧
      (∀ field, field ∈ turn.2 ↔ field ∈ seen ∨ (named items).filter (·.key = field) ≠ []) ∧
      ∀ field, historyTexts field turn.1.units =
        (remainingTexts (decide (field ∈ seen)) ((named items).filter (·.key = field))).filter
          (· ≠ []) := by
  induction items generalizing seen with
  | nil =>
      refine ⟨⟨rfl, by simp [historyItems]⟩, by simp [historyItems, named], fun field => ?_⟩
      simp [historyItems, named, remainingTexts, heldTexts, Stretch.units, historyTexts]
  | cons item items ih =>
      cases item with
      | none => exact ih seen h
      | some item =>
          by_cases hkey : item.key = []
          · have hnamed : named (some item :: items) = named items := by simp [named, hkey]
            rw [historyItems, if_pos hkey] at h ⊢
            rw [hnamed]
            exact ih seen h
          · have hnamed : named (some item :: items) = item :: named items := by
              simp [named, hkey]
            rw [historyItems, if_neg hkey] at h ⊢
            obtain ⟨hitem, hitemTexts⟩ :=
              historyItem_spec (h.imp_right fun hraised => (Stretch.raised_andThen.1 hraised).1)
            obtain ⟨hlossless, hseen, htexts⟩ := ih (item.key :: seen)
              (h.imp_right fun hraised => (Stretch.raised_andThen.1 hraised).2)
            rw [hnamed]
            refine ⟨Stretch.lossless_andThen.2 ⟨hitem, hlossless⟩, fun field => ?_, fun field => ?_⟩
            · rw [hseen, List.filter_cons]
              by_cases hfield : item.key = field
              · simp [hfield]
              · simp [hfield, Ne.symm hfield]
            · rw [Stretch.units_andThen hitem.1, historyTexts_append, htexts, hitemTexts,
                List.filter_cons]
              by_cases hfield : item.key = field
              · subst hfield
                have happ := remainingTexts_append (decide (item.key ∈ seen)) [item]
                  ((named items).filter (·.key = item.key))
                simp only [List.mem_cons, true_or, decide_true, if_true, List.singleton_append,
                  List.isEmpty_cons, Bool.not_false, Bool.or_true] at happ ⊢
                rw [happ, List.filter_append]
              · simp [hfield, Ne.symm hfield]

theorem historyEntry_spec (entry : HistoryEntry) (seen : List PyStr)
    (h : blank s.issueId = false ∨ (s.historyEntry c seen entry).1.raised = none) :
    let turn := s.historyEntry c seen entry
    turn.1.raised = none ∧ (turn.1.Lossless ↔ entry.Usable) ∧
      (∀ field, field ∈ turn.2 ↔ field ∈ seen ∨ entry.changes.filter (·.key = field) ≠ []) ∧
      ∀ field, historyTexts field turn.1.units =
        (remainingTexts (decide (field ∈ seen)) (entry.changes.filter (·.key = field))).filter
          (· ≠ []) := by
  by_cases husable : entry.Usable
  · obtain ⟨hid, hsome⟩ := husable
    obtain ⟨items, hitems⟩ := Option.isSome_iff_exists.1 hsome
    have hchanges : entry.changes = named items := by
      rw [HistoryEntry.changes, if_neg hid, hitems]
      rfl
    have hturn : s.historyEntry c seen entry = s.historyItems c entry.id seen items := by
      rw [historyEntry, hitems]
      exact if_neg hid
    rw [hturn] at h
    obtain ⟨hlossless, hseen, htexts⟩ := historyItems_spec items seen h
    rw [hturn, hchanges]
    exact ⟨hlossless.1, iff_of_true hlossless ⟨hid, hsome⟩, hseen, htexts⟩
  · have hturn : s.historyEntry c seen entry =
        (⟨[.failed .invalidMetadata .record none], none⟩, seen) := by
      unfold historyEntry
      split
      · rfl
      · next items hitems => rw [if_pos (by_contra fun hid => husable ⟨hid, by simp [hitems]⟩)]
    have hchanges : entry.changes = [] := by
      unfold HistoryEntry.changes
      split_ifs with hid
      · rfl
      · cases hitems : entry.items with
        | none => rfl
        | some items => exact absurd ⟨hid, by simp [hitems]⟩ husable
    rw [hturn, hchanges]
    refine ⟨rfl, iff_of_false ?_ husable, by simp, fun field => ?_⟩
    · simp [Stretch.Lossless, ObjectEvent.IsLoss]
    · simp [remainingTexts, heldTexts, Stretch.units, historyTexts, ObjectEvent.unit?]

theorem historyFrom_spec (rows : List HistoryEntry) (entries : ℕ)
    (hentries : entries ≤ maxHistoryEntries) (seen : List PyStr)
    (h : blank s.issueId = false ∨ (s.historyFrom c entries seen rows).raised = none) :
    let stretch := s.historyFrom c entries seen rows
    (stretch.Lossless ↔ s.changelog.raised = none ∧ entries + rows.length ≤ maxHistoryEntries ∧
        ∀ entry ∈ rows, entry.Usable) ∧
      ∀ field, historyTexts field stretch.units =
        (remainingTexts (decide (field ∈ seen))
          (changesOf field (rows.take (maxHistoryEntries - entries)))).filter (· ≠ []) := by
  induction rows generalizing entries seen with
  | nil =>
      refine ⟨?_, fun field => ?_⟩
      · simp [historyFrom, Stretch.Lossless, hentries]
      · simp [historyFrom, changesOf, remainingTexts, heldTexts, Stretch.units, historyTexts]
  | cons entry rows ih =>
      rw [historyFrom] at h ⊢
      by_cases hmany : maxHistoryEntries ≤ entries
      · have hnone : maxHistoryEntries - entries = 0 := by omega
        rw [if_pos hmany, hnone]
        refine ⟨iff_of_false (by simp [Stretch.Lossless, ObjectEvent.IsLoss]) ?_, fun field => ?_⟩
        · rintro ⟨-, hlength, -⟩
          rw [List.length_cons] at hlength
          omega
        · simp [changesOf, remainingTexts, heldTexts, Stretch.units, historyTexts,
            ObjectEvent.unit?]
      · have htake : maxHistoryEntries - entries = (maxHistoryEntries - (entries + 1)) + 1 := by
          omega
        have hnext : entries + 1 ≤ maxHistoryEntries := by omega
        rw [if_neg hmany] at h ⊢
        rw [htake, List.take_succ_cons]
        obtain ⟨hraised, hentry, hseen, htexts⟩ := historyEntry_spec entry seen
          (h.imp_right fun hraised => (Stretch.raised_andThen.1 hraised).1)
        obtain ⟨hlossless, hrest⟩ := ih (entries + 1) hnext (s.historyEntry c seen entry).2
          (h.imp_right fun hraised => (Stretch.raised_andThen.1 hraised).2)
        refine ⟨?_, fun field => ?_⟩
        · rw [Stretch.lossless_andThen, hlossless, hentry, List.forall_mem_cons, List.length_cons,
            show entries + 1 + rows.length = entries + (rows.length + 1) by omega]
          tauto
        · have hchanges : changesOf field (entry :: rows.take (maxHistoryEntries - (entries + 1))) =
              entry.changes.filter (·.key = field) ++
                changesOf field (rows.take (maxHistoryEntries - (entries + 1))) := by
            rw [changesOf, List.flatMap_cons, List.filter_append]
            rfl
          have hknown : decide (field ∈ (s.historyEntry c seen entry).2) =
              (decide (field ∈ seen) || !(entry.changes.filter (·.key = field)).isEmpty) := by
            rw [Bool.eq_iff_iff, decide_eq_true_iff, hseen]
            simp
          rw [Stretch.units_andThen hraised, historyTexts_append, htexts, hrest, hchanges,
            remainingTexts_append, hknown, List.filter_append]

/-- A changelog of one field that goes on from where it was. -/
def Consistent (changes : List ChangeItem) : Prop :=
  changes.IsChain fun earlier later => later.before = earlier.after

instance (changes : List ChangeItem) : Decidable (Consistent changes) :=
  inferInstanceAs (Decidable (List.IsChain _ _))

/-- What a later change replaced, an earlier one had set. -/
theorem exists_after_of_before {first : ChangeItem} {later : List ChangeItem}
    (h : Consistent (first :: later)) {change : ChangeItem} (hchange : change ∈ later) :
    ∃ earlier ∈ first :: later, change.before = earlier.after := by
  induction later generalizing first with
  | nil => cases hchange
  | cons second later ih =>
      obtain ⟨hbefore, hrest⟩ := List.isChain_cons_cons.1 h
      rcases List.mem_cons.1 hchange with rfl | hchange
      · exact ⟨first, List.mem_cons_self, hbefore⟩
      · obtain ⟨earlier, hearlier, heq⟩ := ih hrest hchange
        exact ⟨earlier, List.mem_cons_of_mem _ hearlier, heq⟩

theorem infix_heldTexts {changes : List ChangeItem} (h : Consistent changes) {change : ChangeItem}
    (hchange : change ∈ changes) {value : PyStr} (hvalue : value ≠ [])
    (hheld : change.before = value ∨ change.after = value) :
    ∃ text ∈ heldTexts changes, value <:+: text := by
  cases changes with
  | nil => cases hchange
  | cons first later =>
      have hfirst : ∀ v ∈ [first.before, first.after], v = value →
          ∃ text ∈ heldTexts (first :: later), value <:+: text := by
        rintro v hv rfl
        exact ⟨_, List.mem_cons_self,
          infix_joinLines (List.mem_filter.2 ⟨hv, decide_eq_true hvalue⟩)⟩
      have hafter : ∀ e ∈ first :: later, e.after = value →
          ∃ text ∈ heldTexts (first :: later), value <:+: text := by
        intro e he heq
        rcases List.mem_cons.1 he with rfl | he
        · exact hfirst _ (List.mem_cons_of_mem _ (List.mem_singleton_self _)) heq
        · exact ⟨value, List.mem_cons_of_mem _ (List.mem_map.2 ⟨e, he, heq⟩), List.infix_refl _⟩
      rcases hheld with hbefore | hset
      · rcases List.mem_cons.1 hchange with rfl | hchange
        · exact hfirst _ List.mem_cons_self hbefore
        · obtain ⟨e, he, heq⟩ := exists_after_of_before h hchange
          exact hafter e he (heq.symm.trans hbefore)
      · exact hafter change hchange hset

theorem mem_historyTexts {field text : PyStr} {units : List IssueUnit} :
    text ∈ historyTexts field units ↔
      ∃ u ∈ units, (∃ entry, u.display = .history entry field) ∧ u.text = text := by
  unfold historyTexts
  rw [List.mem_filterMap]
  refine exists_congr fun u => and_congr_right fun _ => ?_
  cases hdisplay : u.display <;> simp

/-- The history of an issue is read without loss exactly when the listing came to its end
within the bound and every entry can be referred to. Of each field, the values the entries
set are scanned in order, each once, with the value before the first of them. Where each
change goes on from the one before, no value that the field held is left out. -/
theorem history_read (c : JiraConnector) (s : IssueSite) (h : blank s.issueId = false) :
    ((s.historyUnits c).Lossless ↔ s.changelog.raised = none ∧
        s.changelog.rows.length ≤ maxHistoryEntries ∧
        ∀ entry ∈ s.changelog.rows, entry.Usable) ∧
      ∀ field,
        historyTexts field (s.historyUnits c).units =
          (heldTexts (changesOf field (s.changelog.rows.take maxHistoryEntries))).filter
            (· ≠ []) ∧
        (Consistent (changesOf field (s.changelog.rows.take maxHistoryEntries)) →
          ∀ change ∈ changesOf field (s.changelog.rows.take maxHistoryEntries),
            ∀ value ≠ [], change.before = value ∨ change.after = value →
              ∃ u ∈ (s.historyUnits c).units,
                (∃ entry, u.display = .history entry field) ∧ value <:+: u.text) := by
  obtain ⟨hlossless, htexts⟩ :=
    @historyFrom_spec c s s.changelog.rows 0 (Nat.zero_le _) [] (.inl h)
  have hfield : ∀ field, historyTexts field (s.historyUnits c).units =
      (heldTexts (changesOf field (s.changelog.rows.take maxHistoryEntries))).filter (· ≠ []) := by
    intro field
    rw [historyUnits, htexts field]
    simp [remainingTexts]
  refine ⟨by simpa [historyUnits] using hlossless, fun field => ⟨hfield field, ?_⟩⟩
  intro hconsistent change hchange value hvalue hheld
  obtain ⟨text, htext, hinfix⟩ := infix_heldTexts hconsistent hchange hvalue hheld
  have hne : text ≠ [] := by
    rintro rfl
    exact hvalue (List.infix_nil.1 hinfix)
  have hmem : text ∈ historyTexts field (s.historyUnits c).units := by
    rw [hfield]
    exact List.mem_filter.2 ⟨htext, decide_eq_true hne⟩
  obtain ⟨u, hu, hdisplay, rfl⟩ := mem_historyTexts.1 hmem
  exact ⟨u, hu, hdisplay, hinfix⟩

end IssueSite

section

def asciiJira : JiraConnector where
  digits := asciiDigits
  readers := asciiReaders
  key := pyStr "ENG"
  includeHistory := true

def rotatedKey : IssueSite where
  issue := "10"
  fields := some []
  at? _ := some 0
  changelog :=
    { rows :=
        [{ id := pyStr "1"
           items := some [none,
             some { fieldId := pyStr "key", before := [], after := pyStr "k1" }] },
          { id := pyStr "2"
            items := some [some { fieldId := pyStr "note", before := pyStr "a", after := [] }] },
          { id := pyStr "3"
            items := some
              [some { fieldId := [], field := pyStr " key", before := pyStr "k1",
                      after := pyStr "k2" }] }] }

theorem rotatedKey_read :
    (rotatedKey.historyUnits asciiJira).Lossless ∧
      historyTexts (pyStr "key") (rotatedKey.historyUnits asciiJira).units =
        [pyStr "k1", pyStr "k2"] := by
  have h := IssueSite.history_read asciiJira rotatedKey (by decide)
  refine ⟨h.1.2 (by decide), ?_⟩
  rw [(h.2 (pyStr "key")).1]
  decide

end

end IcebergSST.Jira
