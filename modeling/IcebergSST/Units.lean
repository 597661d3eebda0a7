import IcebergSST.Extraction

/-!
# Objects of a resource and their dispositions

Reading one page or one issue takes several requests, each of which may end in an
exception. A stretch is what was reported up to there: the dispositions of the objects the
source listed, in order, and the units of text among them.
-/

namespace IcebergSST.Content

abbrev SkippedReason := AllowedReason .skipped
abbrev FailedReason := AllowedReason .failed
abbrev ScopeGapReason := AllowedReason .scopeGap

abbrev SkippedReason.emptyContent : SkippedReason := ⟨.emptyContent, skipped_emptyContent⟩

abbrev FailedReason.connectorError : FailedReason := ⟨.connectorError, failed_connectorError⟩

abbrev FailedReason.invalidMetadata : FailedReason := ⟨.invalidMetadata, failed_invalidMetadata⟩

abbrev FailedReason.invalidResponse : FailedReason := ⟨.invalidResponse, failed_invalidResponse⟩

abbrev FailedReason.outputLimit : FailedReason := ⟨.outputLimit, failed_outputLimit⟩

abbrev FailedReason.permissionDenied : FailedReason := ⟨.permissionDenied, failed_permissionDenied⟩

abbrev FailedReason.sizeLimit : FailedReason := ⟨.sizeLimit, failed_sizeLimit⟩

abbrev ScopeGapReason.connectorError : ScopeGapReason := ⟨.connectorError, scopeGap_connectorError⟩

abbrev ScopeGapReason.missingResource : ScopeGapReason :=
  ⟨.missingResource, scopeGap_missingResource⟩

abbrev ScopeGapReason.permissionDenied : ScopeGapReason :=
  ⟨.permissionDenied, scopeGap_permissionDenied⟩

abbrev ScopeGapReason.unreported : ScopeGapReason := ⟨.unreported, scopeGap_unreported⟩

/-- `β` is what a gap refers to, `υ` a unit. -/
inductive ObjectEvent (β υ : Type)
  | scanned (kind : CoverageObjectKind) (ref : β)
  | skipped (reason : SkippedReason) (kind : CoverageObjectKind) (ref : Option β)
  | failed (reason : FailedReason) (kind : CoverageObjectKind) (ref : Option β)
  | scopeGap (reason : ScopeGapReason) (ref : Option β)
  /-- `outcome.units += 1` -/
  | counted
  | yield (unit : υ)
  deriving DecidableEq

/-- The exceptions that a connector tells apart; the first two are no site's fault as a
whole. -/
inductive Raised
  | connectorError
  | permissionDenied
  | credentialError
  | rateLimited
  | unexpected
  deriving DecidableEq, Repr

structure Stretch (β υ : Type) where
  events : List (ObjectEvent β υ)
  raised : Option Raised := none
  deriving DecidableEq

/-- The rows of a collection, and the exception its pagination ended in. -/
structure Listing (α : Type) where
  rows : List α
  raised : Option Raised := none

variable {β υ : Type}

namespace ObjectEvent

def IsLoss : ObjectEvent β υ → Bool
  | .failed .. | .scopeGap .. => true
  | _ => false

/-- The objects an event is a disposition of. -/
def disposed : ObjectEvent β υ → Option (CoverageObjectKind × Option β)
  | .scanned kind ref => some (kind, some ref)
  | .skipped _ kind ref => some (kind, ref)
  | .failed _ kind ref => some (kind, ref)
  | _ => none

def unit? : ObjectEvent β υ → Option υ
  | .yield unit => some unit
  | _ => none

end ObjectEvent

namespace Stretch

def andThen (s t : Stretch β υ) : Stretch β υ :=
  if s.raised.isSome then s else ⟨s.events ++ t.events, t.raised⟩

/-- One part after another, up to an exception. -/
def concat : List (Stretch β υ) → Stretch β υ
  | [] => ⟨[], none⟩
  | s :: parts => s.andThen (concat parts)

/-- An exception that a handler takes becomes an event. -/
def caught (handle : Raised → Option (ObjectEvent β υ)) (s : Stretch β υ) : Stretch β υ :=
  match s.raised.bind handle with
  | some e => ⟨s.events ++ [e], none⟩
  | none => s

def units (s : Stretch β υ) : List υ := s.events.filterMap ObjectEvent.unit?

def disposed (s : Stretch β υ) : List (CoverageObjectKind × Option β) :=
  s.events.filterMap ObjectEvent.disposed

/-- Nothing that was listed is left unread, and no exception cut it short. -/
def Lossless (s : Stretch β υ) : Prop := s.raised = none ∧ ∀ e ∈ s.events, e.IsLoss = false

instance (s : Stretch β υ) : Decidable s.Lossless := inferInstanceAs (Decidable (_ ∧ _))

variable {s t : Stretch β υ} {parts : List (Stretch β υ)}

theorem andThen_of_raised (h : s.raised.isSome) : s.andThen t = s := if_pos h

theorem andThen_of_not_raised (h : s.raised = none) :
    s.andThen t = ⟨s.events ++ t.events, t.raised⟩ := if_neg (by simp [h])

theorem raised_andThen : (s.andThen t).raised = none ↔ s.raised = none ∧ t.raised = none := by
  cases h : s.raised with
  | none => simp [andThen_of_not_raised h]
  | some r => simp [andThen_of_raised (s := s) (by simp [h]), h]

theorem units_andThen (h : s.raised = none) : (s.andThen t).units = s.units ++ t.units := by
  rw [andThen_of_not_raised h]
  exact List.filterMap_append

theorem lossless_andThen : (s.andThen t).Lossless ↔ s.Lossless ∧ t.Lossless := by
  unfold Lossless
  rw [raised_andThen]
  constructor
  · rintro ⟨⟨hs, ht⟩, h⟩
    rw [andThen_of_not_raised hs] at h
    exact ⟨⟨hs, fun e he => h e (List.mem_append_left _ he)⟩, ht,
      fun e he => h e (List.mem_append_right _ he)⟩
  · rintro ⟨⟨hs, h⟩, ht, h'⟩
    refine ⟨⟨hs, ht⟩, ?_⟩
    rw [andThen_of_not_raised hs]
    exact fun e he => (List.mem_append.1 he).elim (h e) (h' e)

theorem raised_concat : (concat parts).raised = none ↔ ∀ s ∈ parts, s.raised = none := by
  induction parts with
  | nil => simp [concat]
  | cons s parts ih => simp [concat, raised_andThen, ih]

theorem lossless_concat : (concat parts).Lossless ↔ ∀ s ∈ parts, s.Lossless := by
  induction parts with
  | nil => simp [concat, Lossless]
  | cons s parts ih => simp [concat, lossless_andThen, ih]

theorem events_concat (h : ∀ s ∈ parts, s.raised = none) :
    (concat parts).events = parts.flatMap Stretch.events := by
  induction parts with
  | nil => rfl
  | cons s parts ih =>
      have hs := h s List.mem_cons_self
      have hparts := ih fun t ht => h t (List.mem_cons_of_mem _ ht)
      simp [concat, andThen_of_not_raised hs, hparts]

theorem concat_of_raised {before : List (Stretch β υ)} (hbefore : ∀ s ∈ before, s.raised = none)
    (hs : s.raised.isSome) :
    concat (before ++ s :: parts) = ⟨before.flatMap Stretch.events ++ s.events, s.raised⟩ := by
  induction before with
  | nil => simp [concat, andThen_of_raised hs]
  | cons t before ih =>
      have ht := hbefore t List.mem_cons_self
      have hrest := ih fun u hu => hbefore u (List.mem_cons_of_mem _ hu)
      simp [concat, andThen_of_not_raised ht, hrest]

theorem caught_of_not_raised {handle : Raised → Option (ObjectEvent β υ)} (h : s.raised = none) :
    s.caught handle = s := by
  simp [caught, h]

theorem mem_units_concat {u : υ} (h : ∀ t ∈ parts, t.raised = none) :
    u ∈ (concat parts).units ↔ ∃ t ∈ parts, u ∈ t.units := by
  unfold units
  rw [events_concat h, List.filterMap_flatMap, List.mem_flatMap]

theorem lossless_caught {handle : Raised → Option (ObjectEvent β υ)}
    (hloss : ∀ r e, handle r = some e → e.IsLoss) : (s.caught handle).Lossless ↔ s.Lossless := by
  unfold caught
  split
  · rename_i e he
    obtain ⟨r, hr, he⟩ := Option.bind_eq_some_iff.1 he
    have hlost := hloss r e he
    simp [Lossless, hr, hlost]
  · rfl

end Stretch

inductive Download
  | data (bytes : List UInt8)
  | tooLarge
  | raised (r : Raised)

/-- A unit whose locator was refused leaves an exception no handler knows. -/
def yielding : Option υ → Stretch β υ
  | some unit => ⟨[.yield unit], none⟩
  | none => ⟨[], some .unexpected⟩

/-- A file that was extracted, or not: one disposition, and the unit if there is text. What
was cut off the text is not scanned, but the rest of it is. -/
def extraction (ref : β) (unit : Extracted → Option υ) (e : Extracted) : Stretch β υ :=
  match h : e.outcome.coverageReason with
  | none =>
      (⟨if e.truncated then [.failed .outputLimit .attachment (some ref), .counted]
        else [.scanned .attachment ref], none⟩ : Stretch β υ).andThen (yielding (unit e))
  | some reason =>
      have hallowed := e.outcome.coverageReason_allowed h
      ⟨if hi : e.outcome.IsIncomplete then
        [.failed ⟨reason, by simpa [ExtractionOutcome.disposition, hi] using hallowed⟩ .attachment
          (some ref)]
      else
        [.skipped ⟨reason, by simpa [ExtractionOutcome.disposition, hi] using hallowed⟩ .attachment
          (some ref)], none⟩

theorem coverageReason_eq_none_iff {o : ExtractionOutcome} :
    o.coverageReason = none ↔ o = .extracted := by
  cases o <;> simp [ExtractionOutcome.coverageReason]

theorem lossless_yielding {unit? : Option υ} :
    (yielding unit? : Stretch β υ).Lossless ↔ unit?.isSome := by
  cases unit? <;> simp [yielding, Stretch.Lossless, ObjectEvent.IsLoss]

variable {ref : β} {unit : Extracted → Option υ} {e : Extracted}

/-- A file has one disposition, whatever becomes of it. -/
theorem disposed_extraction : (extraction ref unit e).disposed = [(.attachment, some ref)] := by
  unfold extraction
  split
  · cases unit e <;> split_ifs <;> rfl
  · dsimp only
    split_ifs <;> rfl

/-- A file is read without loss if it has no text, by its kind or its contents, or if all
of its text is a unit. -/
theorem lossless_extraction_iff :
    (extraction ref unit e).Lossless ↔
      e.outcome.IsIncomplete = false ∧
        (e.outcome = .extracted → e.truncated = false ∧ (unit e).isSome) := by
  unfold extraction
  split
  · rename_i h
    have hout := coverageReason_eq_none_iff.1 h
    rw [Stretch.lossless_andThen, lossless_yielding]
    cases htruncated : e.truncated <;>
      simp [Stretch.Lossless, hout, ObjectEvent.IsLoss, ExtractionOutcome.IsIncomplete]
  · rename_i reason h
    have hne : e.outcome ≠ .extracted := fun heq => by
      rw [coverageReason_eq_none_iff.2 heq] at h
      cases h
    dsimp only
    split_ifs with hi
    · simp [Stretch.Lossless, hi, ObjectEvent.IsLoss]
    · simp [Stretch.Lossless, hne, hi, ObjectEvent.IsLoss]

theorem unit_mem_extraction {u : υ} (hout : e.outcome = .extracted) (hu : unit e = some u) :
    .yield u ∈ (extraction ref unit e).events := by
  unfold extraction
  split
  · rw [Stretch.andThen_of_not_raised rfl, hu]
    exact List.mem_append_right _ (List.mem_singleton_self _)
  · rename_i reason h
    rw [coverageReason_eq_none_iff.2 hout] at h
    cases h

end IcebergSST.Content
