import IcebergSST.Announcements
import IcebergSST.Library.PagedQueue
import IcebergSST.Library.ThreeValued

/-!
# Escalating overdue findings

Each beat of the maintenance loop announces a page of the findings that have passed their
deadline, the longest overdue first. Whether a finding has anywhere to go is asked twice:
of the database before the page is cut, and in Python for each finding on it.
-/

namespace IcebergSST

open Detection (Severity severityRank)

structure OverdueFinding extends AnnouncedFinding where
  ownerGroupId : Option ℕ := none
  dueAt : Option ℤ := none
  deriving DecidableEq

structure OwnerGroup where
  id : ℕ
  notificationChannelId : Option ℕ := none
  disabled : Bool := false

inductive NotificationEventKind
  | findingOpened
  | findingOverdue
  deriving DecidableEq, Repr

/-- A row of the outbox: an opening names its scan, an escalation its deadline. -/
structure OutboxRow where
  channelId : ℕ
  findingId : ℕ
  kind : NotificationEventKind := .findingOpened
  scanId : Option ℕ := none
  dueAt : Option ℤ := none
  deriving DecidableEq

abbrev Outbox := List OutboxRow

/-- Channels, groups and findings with their primary keys, and the foreign key of an owner. -/
structure EscalationTable where
  channels : List NotificationChannel
  groups : List OwnerGroup
  findings : List OverdueFinding
  channels_keyed : (channels.map NotificationChannel.id).Nodup
  groups_keyed : (groups.map OwnerGroup.id).Nodup
  findings_keyed : (findings.map fun f => f.id).Nodup
  owners : ∀ f ∈ findings, ∀ id ∈ f.ownerGroupId, id ∈ groups.map OwnerGroup.id

def EscalationTable.enabled (t : EscalationTable) : List NotificationChannel :=
  t.channels.filter NotificationChannel.enabled

def severitiesAtOrAbove (minimum : Severity) : List Severity :=
  [.low, .medium, .high, .critical].filter fun level => severityRank minimum ≤ severityRank level

/-- `_wanted_by`: one clause for each part of the filter that is set. -/
def wantedBy (channel : NotificationChannel) (f : AnnouncedFinding) : Truth :=
  let severity := channel.eventFilter.minSeverity.map fun minimum =>
    Truth.isIn (some f.severity) (severitiesAtOrAbove minimum)
  let sources :=
    if channel.eventFilter.sourceIds = [] then none
    else some (Truth.isIn (some f.sourceId) channel.eventFilter.sourceIds)
  Truth.allOf (severity.toList ++ sources.toList)

/-- `_has_escalation_target`, called with the enabled channels, at least one. -/
def hasEscalationTarget (channels : List NotificationChannel) (groups : List OwnerGroup)
    (f : OverdueFinding) : Truth :=
  let enabledChannelIds := channels.map NotificationChannel.id
  let targeted := (groups.filter fun g =>
    !g.disabled && g.notificationChannelId.any (· ∈ enabledChannelIds)).map OwnerGroup.id
  let disbanded := (groups.filter OwnerGroup.disabled).map OwnerGroup.id
  let broadcast := Truth.anyOf (channels.map fun channel => wantedBy channel f.toAnnouncedFinding)
  Truth.or (Truth.isIn f.ownerGroupId targeted)
    (Truth.and (Truth.or (Truth.isNull f.ownerGroupId) (Truth.isIn f.ownerGroupId disbanded))
      broadcast)

/-- `_escalation_targets`, with `by_id` over the same channels. -/
def escalationTargets (f : OverdueFinding) (group : Option OwnerGroup)
    (channels : List NotificationChannel) : List NotificationChannel :=
  match group.filter fun g => !g.disabled with
  | some g =>
      (g.notificationChannelId.bind fun id => channels.find? fun c => c.id = id).toList
  | none => channels.filter fun c => channelWants c f.toAnnouncedFinding

namespace EscalationTable

def groupOf (t : EscalationTable) (f : OverdueFinding) : Option OwnerGroup :=
  f.ownerGroupId.bind fun id => t.groups.find? fun g => g.id = id

def targets (t : EscalationTable) (f : OverdueFinding) : List NotificationChannel :=
  escalationTargets f (t.groupOf f) t.enabled

end EscalationTable

theorem mem_severitiesAtOrAbove {minimum level : Severity} :
    level ∈ severitiesAtOrAbove minimum ↔ severityRank minimum ≤ severityRank level := by
  cases minimum <;> cases level <;> decide

theorem selects_wantedBy {channel : NotificationChannel} {f : AnnouncedFinding} :
    (wantedBy channel f).Selects ↔ channelWants channel f := by
  rcases channel with ⟨_, _, ⟨minimum, sources⟩⟩
  cases minimum <;> by_cases hs : sources = [] <;>
    simp [wantedBy, channelWants, Truth.selects_allOf, Truth.selects_isIn,
      mem_severitiesAtOrAbove, hs]

theorem find?_eq_of_keyed {α : Type} {key : α → ℕ} {xs : List α} (h : (xs.map key).Nodup) {x : α}
    (hx : x ∈ xs) : (xs.find? fun y => key y = key x) = some x := by
  cases hfind : xs.find? fun y => key y = key x with
  | none => exact absurd (List.find?_eq_none.1 hfind x hx) (by simp)
  | some y =>
      have hkey : key y = key x := by simpa using List.find?_some hfind
      rw [List.inj_on_of_nodup_map h (List.mem_of_find?_eq_some hfind) hx hkey]

theorem mem_map_filter_of_keyed {α : Type} {key : α → ℕ} {xs : List α} {p : α → Bool}
    (h : (xs.map key).Nodup) {x : α} (hx : x ∈ xs) : key x ∈ (xs.filter p).map key ↔ p x := by
  constructor
  · intro hmem
    obtain ⟨y, hy, hkey⟩ := List.mem_map.1 hmem
    obtain ⟨hy, hp⟩ := List.mem_filter.1 hy
    rwa [← List.inj_on_of_nodup_map h hy hx hkey]
  · intro hp
    exact List.mem_map_of_mem (List.mem_filter.2 ⟨hx, hp⟩)

section Owned
variable {t : EscalationTable} {f : OverdueFinding} {g : OwnerGroup}

theorem EscalationTable.groupOf_owned (hg : g ∈ t.groups) (howner : f.ownerGroupId = some g.id) :
    t.groupOf f = some g := by
  rw [groupOf, howner]
  exact find?_eq_of_keyed t.groups_keyed hg

theorem selects_hasEscalationTarget_owned (hg : g ∈ t.groups)
    (howner : f.ownerGroupId = some g.id) :
    (hasEscalationTarget t.enabled t.groups f).Selects ↔
      (g.disabled = false ∧
        g.notificationChannelId.any (· ∈ t.enabled.map NotificationChannel.id)) ∨
      (g.disabled = true ∧ ∃ c ∈ t.enabled, (wantedBy c f.toAnnouncedFinding).Selects) := by
  have htargeted := mem_map_filter_of_keyed
    (p := fun g => !g.disabled && g.notificationChannelId.any
      (· ∈ t.enabled.map NotificationChannel.id)) t.groups_keyed hg
  have hdisbanded := mem_map_filter_of_keyed (p := OwnerGroup.disabled) t.groups_keyed hg
  rw [Bool.and_eq_true, Bool.not_eq_true'] at htargeted
  have hnull : ¬ (Truth.isNull (some g.id)).Selects := by simp
  have hany : (Truth.anyOf (t.enabled.map fun c => wantedBy c f.toAnnouncedFinding)).Selects ↔
      ∃ c ∈ t.enabled, (wantedBy c f.toAnnouncedFinding).Selects := by
    simp [Truth.selects_anyOf]
  simp only [hasEscalationTarget, howner, Truth.selects_or, Truth.selects_and,
    Truth.selects_isIn_some, hnull, false_or]
  rw [htargeted, hdisbanded, hany]

end Owned

/-- A finding is selected by the query exactly when it has a target. -/
theorem EscalationTable.selects_iff_targets (t : EscalationTable) {f : OverdueFinding}
    (hf : f ∈ t.findings) :
    (hasEscalationTarget t.enabled t.groups f).Selects ↔ t.targets f ≠ [] := by
  have hbroadcast : (∃ c ∈ t.enabled, (wantedBy c f.toAnnouncedFinding).Selects) ↔
      t.enabled.filter (fun c => channelWants c f.toAnnouncedFinding) ≠ [] := by
    simp [selects_wantedBy, List.filter_eq_nil_iff]
  cases howner : f.ownerGroupId with
  | none =>
      -- nobody owns it: any enabled channel that wants it
      have htargets : t.targets f =
          t.enabled.filter fun c => channelWants c f.toAnnouncedFinding := by
        simp [targets, groupOf, howner, escalationTargets]
      rw [htargets, ← hbroadcast]
      simp [hasEscalationTarget, howner, Truth.selects_anyOf]
  | some id =>
      obtain ⟨g, hg, rfl⟩ := List.mem_map.1 (t.owners f hf id howner)
      rw [selects_hasEscalationTarget_owned hg howner, targets, groupOf_owned hg howner]
      cases hdisabled : g.disabled with
      | true =>
          -- a disbanded owner is no owner
          simp only [escalationTargets, Option.filter, hdisabled]
          rw [hbroadcast]
          simp
      | false =>
          -- the team's channel, if it names an enabled one, and no other
          simp only [escalationTargets, Option.filter, hdisabled]
          cases hchannel : g.notificationChannelId with
          | none => simp [hchannel]
          | some id =>
              cases hfind : t.enabled.find? fun c => c.id = id with
              | none =>
                  have hnone := List.find?_eq_none.1 hfind
                  simpa [hchannel, hfind] using hnone
              | some c =>
                  have hid : c.id = id := by simpa using List.find?_some hfind
                  have hc := List.mem_of_find?_eq_some hfind
                  simpa [hchannel, hfind] using ⟨c, hc, hid⟩

/-- The order in which the database comes across the rows of a table. -/
structure RowOrder (α : Type) where
  arrange : List α → List α
  perm : ∀ rows, (arrange rows).Perm rows

structure Beat where
  now : ℤ
  limit : ℕ
  limit_pos : 1 ≤ limit
  rows : RowOrder OverdueFinding

/-- The `EXISTS` over the outbox: an escalation about this finding and this deadline. -/
def escalated (outbox : Outbox) (f : OverdueFinding) : Bool :=
  outbox.any fun d =>
    d.kind = .findingOverdue && d.findingId = f.id && f.dueAt.isSome && d.dueAt = f.dueAt

def OverdueFinding.deadline (f : OverdueFinding) : ℤ := f.dueAt.getD 0

namespace EscalationTable

/-- Actionable, past its deadline, not escalated yet, and with somewhere to go. -/
def selected (t : EscalationTable) (now : ℤ) (outbox : Outbox) (f : OverdueFinding) : Bool :=
  f.Active && f.dueAt.any (· < now) && !escalated outbox f &&
    decide (hasEscalationTarget t.enabled t.groups f).Selects

/-- The page of one beat: ordered by deadline, then cut. -/
def page (t : EscalationTable) (beat : Beat) (outbox : Outbox) : List OverdueFinding :=
  if t.enabled = [] then []
  else
    (((beat.rows.arrange t.findings).filter (t.selected beat.now outbox)).mergeSort
      fun f g => f.deadline ≤ g.deadline).take beat.limit

def announce (t : EscalationTable) (f : OverdueFinding) : Outbox :=
  (t.targets f).map fun channel =>
    { channelId := channel.id, findingId := f.id, kind := .findingOverdue, dueAt := f.dueAt }

def escalateOverdue (t : EscalationTable) (beat : Beat) (outbox : Outbox) : Outbox :=
  outbox ++ (t.page beat outbox).flatMap t.announce

/-- Successive beats, with what each escalated. -/
def pages (t : EscalationTable) : List Beat → Outbox → List (ℤ × List OverdueFinding)
  | [], _ => []
  | beat :: beats, outbox =>
      (beat.now, t.page beat outbox) :: t.pages beats (t.escalateOverdue beat outbox)

def escalateAll (t : EscalationTable) (beats : List Beat) (outbox : Outbox) : Outbox :=
  beats.foldl (fun outbox beat => t.escalateOverdue beat outbox) outbox

def escalations (t : EscalationTable) (beats : List Beat) (outbox : Outbox) :
    List OverdueFinding :=
  PagedQueue.served (t.pages beats outbox)

/-- What is left to escalate, whenever its deadline passes. -/
def waiting (t : EscalationTable) (outbox : Outbox) : Finset OverdueFinding :=
  (t.findings.filter fun f =>
    f.Active && f.dueAt.isSome && !escalated outbox f && decide (t.targets f ≠ [])).toFinset

variable {t : EscalationTable} {outbox : Outbox} {beat : Beat} {f : OverdueFinding}

theorem mem_waiting : f ∈ t.waiting outbox ↔ f ∈ t.findings ∧ f.Active ∧ f.dueAt.isSome ∧
    escalated outbox f = false ∧ t.targets f ≠ [] := by
  simp [waiting, and_assoc]

theorem selected_iff (hf : f ∈ t.findings) {now : ℤ} :
    t.selected now outbox f ↔ f ∈ t.waiting outbox ∧ f.deadline < now := by
  rw [mem_waiting, selected]
  simp only [Bool.and_eq_true, Bool.not_eq_true', decide_eq_true_eq, t.selects_iff_targets hf]
  cases hdue : f.dueAt with
  | none => simp
  | some due =>
      simp [OverdueFinding.deadline, hdue]
      tauto

theorem enabled_ne_nil_of_waiting (h : f ∈ t.waiting outbox) : t.enabled ≠ [] := by
  intro hnil
  obtain ⟨hf, -, -, -, htargets⟩ := mem_waiting.1 h
  apply htargets
  rw [targets, hnil, escalationTargets]
  cases (t.groupOf f).filter fun g => !g.disabled with
  | none => rfl
  | some g => cases hchannel : g.notificationChannelId <;> simp [hchannel]

theorem round_page (t : EscalationTable) (beat : Beat) (outbox : Outbox) :
    PagedQueue.Round OverdueFinding.deadline beat.now (t.waiting outbox) (t.page beat outbox) := by
  have hmem : ∀ f, f ∈ beat.rows.arrange t.findings ↔ f ∈ t.findings :=
    fun f => (beat.rows.perm t.findings).mem_iff
  have hnodup : t.findings.Nodup := t.findings_keyed.of_map _
  unfold page
  split_ifs with hnil
  · constructor
    · simp
    · simp
    · simp
    · exact fun f hf => absurd hnil (enabled_ne_nil_of_waiting hf)
  · apply PagedQueue.Round.of_mergeSort beat.limit_pos
    · exact ((beat.rows.perm t.findings).nodup_iff.2 hnodup).filter _
    · intro f
      rw [List.mem_filter, hmem]
      constructor
      · rintro ⟨hf, hselected⟩
        exact (selected_iff hf).1 hselected
      · rintro ⟨hf, hdue⟩
        have hin := (mem_waiting.1 hf).1
        exact ⟨hin, (selected_iff hin).2 ⟨hf, hdue⟩⟩

theorem escalated_append (outbox rows : Outbox) (f : OverdueFinding) :
    escalated (outbox ++ rows) f = (escalated outbox f || escalated rows f) := by
  simp [escalated]

theorem escalated_announcements {page : List OverdueFinding}
    (hpage : ∀ g ∈ page, g ∈ t.waiting outbox)
    (hf : f ∈ t.findings) : escalated (page.flatMap t.announce) f ↔ f ∈ page := by
  constructor
  · intro h
    obtain ⟨row, hrow, hmatch⟩ := List.any_eq_true.1 h
    obtain ⟨g, hg, hrow⟩ := List.mem_flatMap.1 hrow
    obtain ⟨c, -, rfl⟩ := List.mem_map.1 hrow
    have hid : g.id = f.id := by
      simp only [Bool.and_eq_true, decide_eq_true_eq] at hmatch
      exact hmatch.1.1.2
    have hgf := (mem_waiting.1 (hpage g hg)).1
    rwa [← List.inj_on_of_nodup_map t.findings_keyed hgf hf hid]
  · intro h
    obtain ⟨-, -, hdue, -, htargets⟩ := mem_waiting.1 (hpage f h)
    obtain ⟨c, hc⟩ := List.exists_mem_of_ne_nil _ htargets
    apply List.any_eq_true.2
    refine ⟨_, List.mem_flatMap.2 ⟨f, h, List.mem_map_of_mem hc⟩, ?_⟩
    simp [hdue]

theorem waiting_escalateOverdue (t : EscalationTable) (beat : Beat) (outbox : Outbox) :
    t.waiting (t.escalateOverdue beat outbox) =
      t.waiting outbox \ (t.page beat outbox).toFinset := by
  ext f
  have hpage := fun g hg => ((t.round_page beat outbox).seen g hg).1
  rw [Finset.mem_sdiff, List.mem_toFinset, mem_waiting, mem_waiting, escalateOverdue,
    escalated_append, Bool.or_eq_false_iff]
  constructor
  · rintro ⟨hf, hactive, hdue, ⟨hold, hnew⟩, htargets⟩
    refine ⟨⟨hf, hactive, hdue, hold, htargets⟩, fun hmem => ?_⟩
    rw [(escalated_announcements hpage hf).2 hmem] at hnew
    cases hnew
  · rintro ⟨⟨hf, hactive, hdue, hold, htargets⟩, hmem⟩
    refine ⟨hf, hactive, hdue, ⟨hold, ?_⟩, htargets⟩
    exact Bool.eq_false_iff.2 fun h => hmem ((escalated_announcements hpage hf).1 h)

theorem rounds_pages (t : EscalationTable) (beats : List Beat) (outbox : Outbox) :
    PagedQueue.Rounds OverdueFinding.deadline (t.waiting outbox) (t.pages beats outbox) := by
  induction beats generalizing outbox with
  | nil => trivial
  | cons beat beats ih =>
      refine ⟨t.round_page beat outbox, ?_⟩
      rw [← waiting_escalateOverdue]
      exact ih _

theorem escalateAll_eq (t : EscalationTable) (beats : List Beat) (outbox : Outbox) :
    t.escalateAll beats outbox = outbox ++ (t.escalations beats outbox).flatMap t.announce := by
  induction beats generalizing outbox with
  | nil => simp [escalateAll, escalations, pages, PagedQueue.served]
  | cons beat beats ih =>
      have hfirst := ih (t.escalateOverdue beat outbox)
      rw [escalateAll, List.foldl_cons, ← escalateAll, hfirst, escalateOverdue, List.append_assoc,
        ← List.flatMap_append]
      rfl

theorem card_waiting_le (t : EscalationTable) (outbox : Outbox) :
    (t.waiting outbox).card ≤ t.findings.length :=
  (List.toFinset_card_le _).trans (List.length_filter_le _ _)

theorem length_pages (t : EscalationTable) (beats : List Beat) (outbox : Outbox) :
    (t.pages beats outbox).length = beats.length := by
  induction beats generalizing outbox with
  | nil => rfl
  | cons beat beats ih => simp [pages, ih]

theorem mem_pages {t : EscalationTable} {beats : List Beat} {outbox : Outbox}
    {round : ℤ × List OverdueFinding} (h : round ∈ t.pages beats outbox) :
    ∃ beat ∈ beats, round.1 = beat.now := by
  induction beats generalizing outbox with
  | nil => cases h
  | cons beat beats ih =>
      rcases List.mem_cons.1 h with rfl | h
      · exact ⟨beat, List.mem_cons_self, rfl⟩
      · obtain ⟨b, hb, he⟩ := ih h
        exact ⟨b, List.mem_cons_of_mem _ hb, he⟩

theorem targets_nodup (t : EscalationTable) (f : OverdueFinding) : (t.targets f).Nodup := by
  have henabled : t.enabled.Nodup := (t.channels_keyed.of_map _).filter _
  unfold targets escalationTargets
  split
  · rename_i g _
    cases g.notificationChannelId.bind fun id => t.enabled.find? fun c => c.id = id <;> simp
  · exact henabled.filter _

theorem mem_channels_of_targets {c : NotificationChannel} (hc : c ∈ t.targets f) :
    c ∈ t.channels := by
  have henabled : ∀ c ∈ t.enabled, c ∈ t.channels := fun c hc => (List.mem_filter.1 hc).1
  unfold targets escalationTargets at hc
  split at hc
  · obtain ⟨id, -, hfind⟩ := Option.bind_eq_some_iff.1 (Option.mem_toList.1 hc)
    exact henabled c (List.mem_of_find?_eq_some hfind)
  · exact henabled c (List.mem_filter.1 hc).1

theorem announce_nodup (t : EscalationTable) (f : OverdueFinding) : (t.announce f).Nodup := by
  apply (t.targets_nodup f).map_on
  intro c hc c' hc' he
  exact List.inj_on_of_nodup_map t.channels_keyed (mem_channels_of_targets hc)
    (mem_channels_of_targets hc') (congrArg OutboxRow.channelId he)

/-- The rows that the beats write collide with none that is there and with none of their own. -/
theorem announcements_nodup (t : EscalationTable) {fs : List OverdueFinding} (hnodup : fs.Nodup)
    (hfs : ∀ f ∈ fs, f ∈ t.findings) : (fs.flatMap t.announce).Nodup := by
  apply List.nodup_flatMap.2
  refine ⟨fun f _ => t.announce_nodup f, ?_⟩
  apply hnodup.imp_of_mem
  intro f g hf hg hne row hrow hrow'
  obtain ⟨c, -, rfl⟩ := List.mem_map.1 hrow
  obtain ⟨c', -, he⟩ := List.mem_map.1 hrow'
  exact hne (List.inj_on_of_nodup_map t.findings_keyed (hfs f hf) (hfs g hg)
    (congrArg OutboxRow.findingId he).symm)

theorem announce_fresh (hdue : f.dueAt.isSome) (hnot : escalated outbox f = false)
    {row : OutboxRow} (hrow : row ∈ t.announce f) : row ∉ outbox := by
  intro hmem
  obtain ⟨c, -, rfl⟩ := List.mem_map.1 hrow
  apply List.any_eq_false.1 hnot _ hmem
  simp [hdue]

/-- The query and the targets agree on every finding. With the table held fixed, beats of any
limit escalate each finding at most once, in the order of the deadlines, each time with one
new row for each of its targets; and every finding with a target that is overdue at these
beats is escalated after as many of them as there are findings. -/
theorem escalates_every_target_once (t : EscalationTable) (beats : List Beat) (outbox : Outbox) :
    (∀ f ∈ t.findings,
      (hasEscalationTarget t.enabled t.groups f).Selects ↔ t.targets f ≠ []) ∧
    t.escalateAll beats outbox = outbox ++ (t.escalations beats outbox).flatMap t.announce ∧
    ((t.escalations beats outbox).flatMap t.announce).Nodup ∧
    (∀ row ∈ (t.escalations beats outbox).flatMap t.announce, row ∉ outbox) ∧
    (t.escalations beats outbox).Nodup ∧
    ((t.escalations beats outbox).Pairwise fun f g => f.deadline ≤ g.deadline) ∧
    (∀ f ∈ t.escalations beats outbox, f ∈ t.findings ∧ f.Active ∧ f.dueAt.isSome ∧
      (∃ beat ∈ beats, f.deadline < beat.now) ∧ escalated outbox f = false ∧ t.targets f ≠ []) ∧
    ∀ f ∈ t.findings, f.Active → ∀ due, f.dueAt = some due → (∀ beat ∈ beats, due < beat.now) →
      escalated outbox f = false → t.targets f ≠ [] → t.findings.length ≤ beats.length →
      f ∈ t.escalations beats outbox := by
  have hrounds := t.rounds_pages beats outbox
  have hwaiting : ∀ f ∈ t.escalations beats outbox, f ∈ t.waiting outbox :=
    fun f hf => hrounds.waiting_of_served hf
  refine ⟨fun f hf => t.selects_iff_targets hf, t.escalateAll_eq beats outbox, ?_, ?_,
    hrounds.nodup, hrounds.sorted, ?_, ?_⟩
  · exact t.announcements_nodup hrounds.nodup fun f hf => (mem_waiting.1 (hwaiting f hf)).1
  · intro row hrow
    obtain ⟨f, hf, hrow⟩ := List.mem_flatMap.1 hrow
    obtain ⟨-, -, hdue, hnot, -⟩ := mem_waiting.1 (hwaiting f hf)
    exact announce_fresh hdue hnot hrow
  · intro f hf
    obtain ⟨hin, hactive, hdue, hnot, htargets⟩ := mem_waiting.1 (hwaiting f hf)
    obtain ⟨round, hround, hlt⟩ := hrounds.seen hf
    obtain ⟨beat, hbeat, hnow⟩ := mem_pages hround
    exact ⟨hin, hactive, hdue, ⟨beat, hbeat, hnow ▸ hlt⟩, hnot, htargets⟩
  · intro f hf hactive due hdue hbeats hnot htargets hlength
    apply hrounds.complete
    · exact mem_waiting.2 ⟨hf, hactive, by simp [hdue], hnot, htargets⟩
    · intro round hround
      obtain ⟨beat, hbeat, hnow⟩ := mem_pages hround
      rw [hnow, OverdueFinding.deadline, hdue]
      exact hbeats beat hbeat
    · rw [length_pages]
      exact (t.card_waiting_le outbox).trans hlength

end EscalationTable

end IcebergSST
